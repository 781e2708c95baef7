import HevTunnel.CString
import HevTunnel.RBTreeBalance
import Mathlib.Data.List.Nodup
import Mathlib.Data.Prod.Lex

/-! # The user database

`hev-socks5-authenticator.c` keeps the users of a server in a red-black tree, ordered by the length
of their names and then by the bytes of the names; `hev-socks5-user.c` checks passwords.

`Authenticator.WF` is the search-tree invariant.  It holds for every database that can be built by
`add` and `del` (`Reachable.wf`), and for such a database `get` finds exactly the users that are in
it (`WF.get_eq_some_iff`). -/

namespace HevTunnel

/-- `HevSocks5User`. -/
structure User where
  name : List Byte
  pass : List Byte
deriving DecidableEq

/-- `hev_socks5_user_checker`. -/
def User.check (self : User) (pass : List Byte) : Int :=
  if self.pass.length ≠ pass.length then -1
  else if memcmp self.pass pass ≠ 0 then -1
  else 0

theorem User.check_eq_zero {self : User} {pass : List Byte} : self.check pass = 0 ↔ self.pass = pass := by
  unfold User.check
  split_ifs with hlen hcmp
  · exact ⟨by simp, fun h => absurd (congrArg List.length h) hlen⟩
  · exact ⟨by simp, fun h => absurd ((memcmp_sameLength (not_not.mp hlen)).2.mpr h) hcmp⟩
  · exact ⟨fun _ => (memcmp_sameLength (not_not.mp hlen)).2.mp (not_not.mp hcmp), fun _ => rfl⟩

theorem User.check_cases (self : User) (pass : List Byte) :
    self.check pass = 0 ∨ self.check pass = -1 := by
  unfold User.check
  split_ifs <;> simp

/-! ### The order of names -/

/-- The comparison of a user of the tree with a name. -/
def nameCompare (this name : List Byte) : Int :=
  if this.length < name.length then -1
  else if this.length > name.length then 1
  else memcmp this name

/-- Names are ordered by length first. -/
def nameKey (name : List Byte) : ℕ ×ₗ List ℕ := toLex (name.length, name.map UInt8.toNat)

theorem nameKey_inj {a b : List Byte} : nameKey a = nameKey b ↔ a = b := by
  constructor
  · intro h
    have := congrArg (fun k => (ofLex k).2) h
    exact List.map_injective_iff.mpr (fun x y hxy => UInt8.toNat_inj.mp hxy) this
  · rintro rfl
    rfl

theorem nameCompare_neg {a b : List Byte} : nameCompare a b < 0 ↔ nameKey a < nameKey b := by
  unfold nameCompare nameKey
  rw [Prod.Lex.toLex_lt_toLex]
  split_ifs with hlt hgt
  · simp [hlt]
  · simp only [hlt, false_or]
    omega
  · have heq : a.length = b.length := by omega
    simp [heq, (memcmp_sameLength heq).1]

theorem nameCompare_eq_zero {a b : List Byte} : nameCompare a b = 0 ↔ a = b := by
  unfold nameCompare
  split_ifs with hlt hgt
  · exact ⟨by simp, fun h => by rw [h] at hlt; omega⟩
  · exact ⟨by simp, fun h => by rw [h] at hgt; omega⟩
  · exact (memcmp_sameLength (by omega)).2

theorem nameCompare_pos {a b : List Byte} : 0 < nameCompare a b ↔ nameKey b < nameKey a :=
  pos_iff_of_neg_iff nameCompare_neg (nameCompare_eq_zero.trans nameKey_inj.symm)

/-! ### The operations -/

/-- `HevSocks5Authenticator`. -/
structure Authenticator where
  tree : RBTree User

namespace Authenticator

/-- `hev_socks5_authenticator_new`. -/
def empty : Authenticator := ⟨.nil⟩

/-- The descent of all three operations: the user with the name, or the slot for it. -/
def find (self : Authenticator) (name : List Byte) : Option (Option User × RBTree.Path User) :=
  self.tree.descend (fun this => some (nameCompare this.name name)) []

/-- `hev_socks5_authenticator_add`; `none` is a memory fault. -/
def add (self : Authenticator) (user : User) : Option (Int × Authenticator) := do
  let (hit, slot) ← self.find user.name
  match hit with
  | some _ => pure (-1, self)
  | none => do
      let tree ← RBTree.link user slot
      pure (0, ⟨tree⟩)

/-- `hev_socks5_authenticator_del`. -/
def del (self : Authenticator) (name : List Byte) : Option (Int × Authenticator) := do
  let (hit, _) ← self.find name
  match hit with
  | some this => do
      let tree ← self.tree.erase (· == this)
      pure (0, ⟨tree⟩)
  | none => pure (-1, self)

/-- `hev_socks5_authenticator_get`. -/
def get (self : Authenticator) (name : List Byte) : Option User := (self.find name).bind Prod.fst

/-- The users of a database. -/
def users (self : Authenticator) : List User := self.tree.inorder

/-- The databases that can be built. -/
inductive Reachable : Authenticator → Prop
  | empty : Reachable empty
  | add {a a' : Authenticator} {user : User} {res : Int} :
      Reachable a → a.add user = some (res, a') → Reachable a'
  | del {a a' : Authenticator} {name : List Byte} {res : Int} :
      Reachable a → a.del name = some (res, a') → Reachable a'

/-! ### The search-tree invariant -/

structure WF (a : Authenticator) : Prop where
  balanced : RBTree.IsBalanced a.tree
  /-- Greater names come first. -/
  sorted : a.users.Pairwise (fun u v => nameKey v.name < nameKey u.name)

theorem wf_empty : empty.WF := ⟨RBTree.isBalanced_nil, .nil⟩

/-- Where a search ends at a slot, no user has the name. -/
theorem name_ne_of_slot {a : Authenticator} {name : List Byte} {p : RBTree.Path User}
    (hsplit : a.users = RBTree.before p ++ RBTree.after p)
    (hgt : ∀ u ∈ RBTree.before p, nameKey name < nameKey u.name)
    (hlt : ∀ u ∈ RBTree.after p, nameKey u.name < nameKey name) :
    ∀ u ∈ a.users, u.name ≠ name := by
  rintro u hu rfl
  rw [hsplit, List.mem_append] at hu
  obtain hu | hu := hu
  · exact lt_irrefl _ (hgt u hu)
  · exact lt_irrefl _ (hlt u hu)

namespace WF
variable {a : Authenticator} (h : a.WF)
include h

/-- A search finds the user with the name, or the slot between the greater and the smaller names. -/
theorem find_cases (name : List Byte) :
    (∃ u p, a.find name = some (some u, p) ∧ u ∈ a.users ∧ u.name = name) ∨
    (∃ p, a.find name = some (none, p) ∧ a.users = RBTree.before p ++ RBTree.after p ∧
      (∀ u ∈ RBTree.before p, nameKey name < nameKey u.name) ∧
      ∀ u ∈ RBTree.after p, nameKey u.name < nameKey name) := by
  have hs : a.tree.inorder.Pairwise
      (fun u v => 0 ≤ nameCompare v.name name → 0 < nameCompare u.name name) := by
    refine h.sorted.imp ?_
    intro u v huv hv
    rw [nameCompare_pos]
    rw [← not_lt, nameCompare_neg, not_lt] at hv
    exact lt_of_le_of_lt hv huv
  obtain ⟨u, p, hfind, hmem, hzero⟩ | ⟨p, gt, lt, hfind, hsplit, hbefore, hafter, hgt, hlt⟩ :=
    RBTree.descend_sorted a.tree [] (fun _ _ => rfl) hs
  · exact .inl ⟨u, p, hfind, hmem, nameCompare_eq_zero.mp hzero⟩
  · rw [RBTree.before, List.nil_append] at hbefore
    rw [RBTree.after, List.append_nil] at hafter
    refine .inr ⟨p, hfind, ?_, ?_, ?_⟩
    · rw [hbefore, hafter]
      exact hsplit
    · rw [hbefore]
      exact fun u hu => nameCompare_pos.mp (hgt u hu)
    · rw [hafter]
      exact fun u hu => nameCompare_neg.mp (hlt u hu)

/-- No two users have the same name. -/
theorem nodup_names : (a.users.map User.name).Nodup := by
  rw [List.Nodup, List.pairwise_map]
  refine h.sorted.imp ?_
  intro u v huv hname
  rw [hname] at huv
  exact lt_irrefl _ huv

theorem eq_of_name {u v : User} (hu : u ∈ a.users) (hv : v ∈ a.users) (hname : u.name = v.name) :
    u = v :=
  List.inj_on_of_nodup_map h.nodup_names hu hv hname

/-- `get` finds exactly the users of the database. -/
theorem get_eq_some_iff {name : List Byte} {u : User} :
    a.get name = some u ↔ u ∈ a.users ∧ u.name = name := by
  unfold get
  obtain ⟨v, p, hfind, hv, hname⟩ | ⟨p, hfind, hsplit, hgt, hlt⟩ := h.find_cases name
  · rw [hfind]
    show some v = some u ↔ _
    rw [Option.some.injEq]
    constructor
    · rintro rfl
      exact ⟨hv, hname⟩
    · rintro ⟨hu, hname'⟩
      exact h.eq_of_name hv hu (hname.trans hname'.symm)
  · rw [hfind]
    show none = some u ↔ _
    refine ⟨by simp, ?_⟩
    rintro ⟨hu, hname⟩
    exact absurd hname (name_ne_of_slot hsplit hgt hlt u hu)

/-- A name and a password are those of a user exactly if the user is found and the check passes. -/
theorem mem_users_iff {name pass : List Byte} :
    ⟨name, pass⟩ ∈ a.users ↔ ∃ u, a.get name = some u ∧ u.check pass = 0 := by
  constructor
  · intro hmem
    exact ⟨_, h.get_eq_some_iff.mpr ⟨hmem, rfl⟩, User.check_eq_zero.mpr rfl⟩
  · rintro ⟨u, hget, hcheck⟩
    obtain ⟨hmem, rfl⟩ := h.get_eq_some_iff.mp hget
    rw [← User.check_eq_zero.mp hcheck]
    exact hmem

/-- `add` refuses a name that is taken, and otherwise puts the user in. -/
theorem add (user : User) : ∃ res a', a.add user = some (res, a') ∧ a'.WF ∧
    ((res = -1 ∧ a' = a ∧ ∃ u ∈ a.users, u.name = user.name) ∨
      (res = 0 ∧ (∀ u ∈ a.users, u.name ≠ user.name) ∧ ∀ u, u ∈ a'.users ↔ u = user ∨ u ∈ a.users)) := by
  unfold Authenticator.add
  obtain ⟨v, p, hfind, hv, hname⟩ | ⟨p, hfind, hsplit, hgt, hlt⟩ := h.find_cases user.name
  · rw [hfind]
    exact ⟨-1, a, rfl, h, .inl ⟨rfl, rfl, v, hv, hname⟩⟩
  · obtain ⟨t, hlink, hbal⟩ := RBTree.link_balanced user h.balanced hfind
    have hin : RBTree.inorder t = RBTree.before p ++ user :: RBTree.after p := RBTree.inorder_link hlink
    have hs := h.sorted
    rw [hsplit, List.pairwise_append] at hs
    refine ⟨0, ⟨t⟩, by simp [hfind, hlink], ⟨hbal, ?_⟩, .inr ⟨rfl, ?_, ?_⟩⟩
    · show (RBTree.inorder t).Pairwise _
      rw [hin, List.pairwise_append, List.pairwise_cons]
      refine ⟨hs.1, ⟨hlt, hs.2.1⟩, ?_⟩
      intro u hu v hv
      obtain rfl | hv := List.mem_cons.mp hv
      · exact hgt u hu
      · exact hs.2.2 u hu v hv
    · exact name_ne_of_slot hsplit hgt hlt
    · intro u
      show u ∈ RBTree.inorder t ↔ _
      rw [hin, hsplit]
      simp only [List.mem_append, List.mem_cons]
      tauto

/-- `del` takes out the user with the name, if there is one. -/
theorem del (name : List Byte) : ∃ res a', a.del name = some (res, a') ∧ a'.WF ∧
    ((res = 0 ∧ ∃ u ∈ a.users, u.name = name) ∨
      (res = -1 ∧ a' = a ∧ ∀ u ∈ a.users, u.name ≠ name)) ∧
    ∀ u, u ∈ a'.users ↔ u ∈ a.users ∧ u.name ≠ name := by
  unfold Authenticator.del
  obtain ⟨v, p, hfind, hv, hname⟩ | ⟨p, hfind, hsplit, hgt, hlt⟩ := h.find_cases name
  · obtain ⟨t, herase, hbal⟩ := RBTree.erase_balanced (q := (· == v)) h.balanced ⟨v, hv, by simp⟩
    obtain ⟨gt, x, lt, hx, hin, hin'⟩ := RBTree.inorder_erase herase
    obtain rfl : x = v := by simpa using hx
    have hnodup := h.nodup_names
    rw [users, hin, List.map_append, List.map_cons, List.nodup_middle, List.nodup_cons,
      ← List.map_append] at hnodup
    refine ⟨0, ⟨t⟩, by simp [hfind, herase], ⟨hbal, ?_⟩, .inl ⟨rfl, x, hv, hname⟩, ?_⟩
    · have hs := h.sorted
      rw [users, hin] at hs
      show (RBTree.inorder t).Pairwise _
      rw [hin']
      exact hs.sublist ((List.Sublist.refl gt).append (List.sublist_cons_self x lt))
    · intro u
      show u ∈ RBTree.inorder t ↔ u ∈ RBTree.inorder a.tree ∧ _
      rw [hin', hin, ← hname]
      constructor
      · intro hu
        refine ⟨by simp at hu ⊢; tauto, ?_⟩
        intro hux
        exact hnodup.1 (hux ▸ List.mem_map_of_mem hu)
      · rintro ⟨hu, hux⟩
        simp only [List.mem_append, List.mem_cons] at hu ⊢
        obtain hu | rfl | hu := hu
        · exact .inl hu
        · exact absurd rfl hux
        · exact .inr hu
  · have hne := name_ne_of_slot hsplit hgt hlt
    refine ⟨-1, a, by simp [hfind], h, .inr ⟨rfl, rfl, hne⟩, ?_⟩
    exact fun u => ⟨fun hu => ⟨hu, hne u hu⟩, fun hu => hu.1⟩

end WF

/-- Every database that can be built is a search tree. -/
theorem Reachable.wf {a : Authenticator} (h : Reachable a) : a.WF := by
  induction h with
  | empty => exact wf_empty
  | add _ hadd ih =>
      obtain ⟨res, a', h', hwf, -⟩ := ih.add _
      rw [hadd] at h'
      cases h'
      exact hwf
  | del _ hdel ih =>
      obtain ⟨res, a', h', hwf, -⟩ := ih.del _
      rw [hdel] at h'
      cases h'
      exact hwf

end Authenticator

end HevTunnel
