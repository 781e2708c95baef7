import HevTunnel.Authenticator
import Mathlib.Data.Finmap

/-! # The user database is a finite map

`UserMap` is what `hev-socks5-authenticator.c` is for: a finite map from names to users.
`Authenticator.call` makes one of its calls on the tree, `UserMap.call` on the map.

`Represents` relates the two by the users they hold.  A call keeps the relation and gives the same
result (`Represents.call`), and so does every sequence of calls (`calls_eq_map`). -/

namespace HevTunnel

/-- Users by name. -/
abbrev UserMap := Finmap (fun _ : List Byte => User)

/-- The calls. -/
inductive AuthCall where
  | add (user : User)
  | del (name : List Byte)
  | get (name : List Byte)
  | clear
deriving DecidableEq

/-- What they return. -/
inductive AuthResult where
  | res (r : Int)
  | user (u : Option User)
  | done
deriving DecidableEq

/-! ### The map -/

namespace UserMap

/-- A name that is taken is refused. -/
def call (m : UserMap) : AuthCall → AuthResult × UserMap
  | .add user => if user.name ∈ m then (.res (-1), m) else (.res 0, m.insert user.name user)
  | .del name => if name ∈ m then (.res 0, m.erase name) else (.res (-1), m)
  | .get name => (.user (m.lookup name), m)
  | .clear => (.done, ∅)

def calls (m : UserMap) : List AuthCall → List AuthResult × UserMap
  | [] => ([], m)
  | c :: cs =>
      let (r, m) := m.call c
      let (rs, m) := calls m cs
      (r :: rs, m)

end UserMap

/-! ### The tree -/

namespace Authenticator

/-- The loop of `hev_socks5_authenticator_clear` for at most `n` rounds; `none` if it has not ended
then, or at a memory fault. -/
def clearLoop : ℕ → RBTree User → Option (RBTree User)
  | 0, _ => none
  | n + 1, tree =>
      match tree.first with
      | none => some tree
      | some t => (tree.erase (· == t)).bind (clearLoop n)

/-- `hev_socks5_authenticator_clear`.  Every round takes a user out. -/
def clear (self : Authenticator) : Option Authenticator :=
  (clearLoop (self.users.length + 1) self.tree).map Authenticator.mk

def call (self : Authenticator) : AuthCall → Option (AuthResult × Authenticator)
  | .add user => (self.add user).map (fun r => (.res r.1, r.2))
  | .del name => (self.del name).map (fun r => (.res r.1, r.2))
  | .get name => some (.user (self.get name), self)
  | .clear => self.clear.map (fun a => (.done, a))

def calls (self : Authenticator) : List AuthCall → Option (List AuthResult × Authenticator)
  | [] => some ([], self)
  | c :: cs => do
      let (r, a) ← self.call c
      let (rs, a) ← calls a cs
      pure (r :: rs, a)

/-- The loop ends after at most one round more than there are users, and leaves none. -/
theorem clearLoop_eq {tree : RBTree User} (hbal : tree.IsBalanced) {n : ℕ}
    (hn : tree.inorder.length < n) : clearLoop n tree = some .nil := by
  induction n generalizing tree with
  | zero => omega
  | succ n ih =>
      unfold clearLoop
      rw [RBTree.first_eq_head?]
      cases hin : tree.inorder with
      | nil =>
          cases tree with
          | nil => rfl
          | node c l x r => simp at hin
      | cons t rest =>
          have ht : t ∈ tree.inorder := by rw [hin]; exact List.mem_cons_self
          obtain ⟨tree', herase, hbal'⟩ := RBTree.erase_balanced (q := (· == t)) hbal ⟨t, ht, by simp⟩
          obtain ⟨a, x, b, -, hab, hab'⟩ := RBTree.inorder_erase herase
          simp only [List.head?_cons, herase, Option.bind_some]
          apply ih hbal'
          rw [hab, List.length_append, List.length_cons] at hn
          rw [hab', List.length_append]
          omega

/-- The map holds the users of the search tree. -/
structure Represents (a : Authenticator) (m : UserMap) : Prop where
  wf : a.WF
  lookup : ∀ name u, m.lookup name = some u ↔ u ∈ a.users ∧ u.name = name

theorem represents_empty : Represents empty ∅ := by
  refine ⟨wf_empty, ?_⟩
  intro name u
  simp [users, empty]

namespace Represents
variable {a : Authenticator} {m : UserMap} (h : Represents a m)
include h

theorem get (name : List Byte) : a.get name = m.lookup name := by
  apply Option.ext
  intro u
  rw [h.wf.get_eq_some_iff, h.lookup]

theorem mem_iff {name : List Byte} : name ∈ m ↔ ∃ u ∈ a.users, u.name = name := by
  rw [Finmap.mem_iff]
  apply exists_congr
  intro u
  exact h.lookup name u

theorem insert {a' : Authenticator} {user : User} (hwf : a'.WF)
    (hfree : ∀ u ∈ a.users, u.name ≠ user.name)
    (hmem : ∀ u, u ∈ a'.users ↔ u = user ∨ u ∈ a.users) :
    Represents a' (m.insert user.name user) := by
  refine ⟨hwf, ?_⟩
  intro name u
  rw [hmem]
  by_cases hname : name = user.name
  · rw [hname, Finmap.lookup_insert, Option.some.injEq]
    constructor
    · rintro rfl
      exact ⟨.inl rfl, rfl⟩
    · rintro ⟨rfl | hu, hu'⟩
      · rfl
      · exact absurd hu' (hfree u hu)
  · rw [Finmap.lookup_insert_of_ne _ hname, h.lookup]
    constructor
    · rintro ⟨hu, hu'⟩
      exact ⟨.inr hu, hu'⟩
    · rintro ⟨rfl | hu, hu'⟩
      · exact absurd hu'.symm hname
      · exact ⟨hu, hu'⟩

theorem erase {a' : Authenticator} {name : List Byte} (hwf : a'.WF)
    (hmem : ∀ u, u ∈ a'.users ↔ u ∈ a.users ∧ u.name ≠ name) : Represents a' (m.erase name) := by
  refine ⟨hwf, ?_⟩
  intro name' u
  rw [hmem]
  by_cases hname : name' = name
  · rw [hname, Finmap.lookup_erase]
    constructor
    · intro hu
      cases hu
    · rintro ⟨⟨-, hne⟩, heq⟩
      exact absurd heq hne
  · rw [Finmap.lookup_erase_ne hname, h.lookup]
    constructor
    · rintro ⟨hu, rfl⟩
      exact ⟨⟨hu, hname⟩, rfl⟩
    · rintro ⟨⟨hu, -⟩, heq⟩
      exact ⟨hu, heq⟩

/-- One call gives the result of the map. -/
theorem call (c : AuthCall) :
    ∃ a', a.call c = some ((m.call c).1, a') ∧ Represents a' (m.call c).2 := by
  cases c with
  | add user =>
      obtain ⟨res, a', hadd, hwf, ⟨rfl, rfl, htaken⟩ | ⟨rfl, hfree, hmem⟩⟩ := h.wf.add user
      · have hin : user.name ∈ m := h.mem_iff.mpr htaken
        exact ⟨a', by simp [Authenticator.call, UserMap.call, hadd, hin],
          by simpa [UserMap.call, hin] using h⟩
      · have hout : user.name ∉ m := by
          rw [h.mem_iff]
          rintro ⟨u, hu, hname⟩
          exact hfree u hu hname
        exact ⟨a', by simp [Authenticator.call, UserMap.call, hadd, hout],
          by simpa [UserMap.call, hout] using h.insert hwf hfree hmem⟩
  | del name =>
      obtain ⟨res, a', hdel, hwf, ⟨rfl, htaken⟩ | ⟨rfl, rfl, hfree⟩, hmem⟩ := h.wf.del name
      · have hin : name ∈ m := h.mem_iff.mpr htaken
        exact ⟨a', by simp [Authenticator.call, UserMap.call, hdel, hin],
          by simpa [UserMap.call, hin] using h.erase hwf hmem⟩
      · have hout : name ∉ m := by
          rw [h.mem_iff]
          rintro ⟨u, hu, hname⟩
          exact hfree u hu hname
        exact ⟨a', by simp [Authenticator.call, UserMap.call, hdel, hout],
          by simpa [UserMap.call, hout] using h⟩
  | get name => exact ⟨a, by rw [Authenticator.call, h.get]; rfl, h⟩
  | clear =>
      have hclear : a.clear = some empty := by
        rw [clear, clearLoop_eq (n := a.users.length + 1) h.wf.balanced (Nat.lt_succ_self _)]
        rfl
      exact ⟨empty, by rw [Authenticator.call, hclear]; rfl, represents_empty⟩

end Represents

/-- A sequence of calls. -/
theorem Represents.calls {a : Authenticator} {m : UserMap} (h : Represents a m) (cs : List AuthCall) :
    ∃ a', a.calls cs = some ((m.calls cs).1, a') ∧ Represents a' (m.calls cs).2 := by
  induction cs generalizing a m with
  | nil => exact ⟨a, rfl, h⟩
  | cons c cs ih =>
      obtain ⟨a₁, hcall, h₁⟩ := h.call c
      obtain ⟨a₂, hcalls, h₂⟩ := ih h₁
      refine ⟨a₂, ?_, h₂⟩
      simp [Authenticator.calls, UserMap.calls, hcall, hcalls]

/-- For every sequence of calls, the results are those of a finite map that starts empty, and the
map that is left answers as `get` does. -/
theorem calls_eq_map (cs : List AuthCall) : ∃ a,
    empty.calls cs = some ((UserMap.calls ∅ cs).1, a) ∧
      ∀ name, a.get name = (UserMap.calls ∅ cs).2.lookup name := by
  obtain ⟨a, hcalls, h⟩ := represents_empty.calls cs
  exact ⟨a, hcalls, h.get⟩

end Authenticator

end HevTunnel
