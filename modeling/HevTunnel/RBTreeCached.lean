import HevTunnel.RBTreeWalk
import Mathlib.Data.List.Sort

/-! # Red-black trees that remember their first node

`hev-rbtree-cached.c` keeps a pointer to the first node beside the tree.  Its users, the scheduler and
the timer, insert a node by the same loop: from the root they go left where the new node comes before
the node at hand and right elsewhere, and they note whether they ever went right.

`Lists s ns` says that the tree has the in-order sequence `ns` and that the pointer is right.
`insert_lists` and `erase_lists`: the two operations end, keep the pointer right, put the new node in
front of the first one it comes before, and take a member out. -/

namespace HevTunnel

variable {w : ℕ}

namespace RBHeap

/-- The pointer in a child slot, `*new`. -/
def load (s : RBHeap w) : Slot w → Option (Word w)
  | .root => some s.root
  | .child parent d => (s.read parent).map (RBNode.child d)

/-- `while (*new) …` of the functions that insert: the slot for the new node, and `leftmost`. -/
def descend (less : Word w → Option Bool) (s : RBHeap w) :
    ℕ → Slot w → Bool → Option (Slot w × Bool)
  | 0, _, _ => none
  | fuel + 1, new, leftmost =>
      (s.load new).bind fun this =>
        if this = 0 then some (new, leftmost)
        else (less this).bind fun left =>
          if left then descend less s fuel (.child this .left) leftmost
          else descend less s fuel (.child this .right) false

end RBHeap

/-- `HevRBTreeCached`. -/
structure RBCached (w : ℕ) where
  base : RBHeap w
  leftmost : Word w

namespace RBCached

/-- `hev_rbtree_cached_first`. -/
def first (s : RBCached w) : Word w := s.leftmost

/-- `hev_rbtree_cached_insert_color`. -/
def insertColor (fuel : ℕ) (s : RBCached w) (node : Word w) (leftmost : Bool) :
    Option (RBCached w) := do
  let first := if leftmost then node else s.leftmost
  let base ← s.base.insertColor fuel node
  pure ⟨base, first⟩

/-- The part that `_hev_task_system_insert_task` and `hev_task_timer_wait` share: the descent,
`hev_rbtree_node_link` and `hev_rbtree_cached_insert_color`.  `less this` says whether the new node
comes before `this`. -/
def insert (less : Word w → Option Bool) (fuel : ℕ) (s : RBCached w) (node : Word w) :
    Option (RBCached w × Bool) := do
  let (new, leftmost) ← s.base.descend less fuel .root true
  let base ← s.base.nodeLink node new
  let s ← insertColor fuel ⟨base, s.leftmost⟩ node leftmost
  pure (s, leftmost)

/-- `hev_rbtree_cached_erase`. -/
def erase (fuel : ℕ) (s : RBCached w) (node : Word w) : Option (RBCached w) := do
  let first ← if node = s.leftmost then s.base.nodeNext fuel node else some s.leftmost
  let base ← s.base.erase fuel node
  pure ⟨base, first⟩

/-- The tree has the in-order sequence `ns`, and its first node is remembered. -/
structure Lists (s : RBCached w) (ns : List (Word w)) : Prop where
  wellFormed : s.base.WellFormed ns
  leftmost : s.leftmost = ns.head?.getD 0

end RBCached

namespace RBTree

variable {s : RBHeap w} {t : RBTree (Word w)} {p : Path (Word w)}

/-- The slot of a position holds the pointer to its subtree. -/
theorem load_slot (h : At s t p) : s.load (slot p) = some (ptr t) := by
  cases p with
  | nil => exact congrArg some h.root
  | cons f p =>
      obtain ⟨d, c, x, b, rfl⟩ := f.exists_ofSide
      have h' := Holds.frame_iff.mp h
      rw [slot_ofSide, RBHeap.load, h'.read (i := 0) rfl, Option.map_some, RBNode.child_ofSide]

/-- The slot of a missing child is free. -/
theorem slot_free (h : At s nil p) : (slot p).Free s (inorder (plug nil p)) := by
  cases p with
  | nil => exact h.root
  | cons f p =>
      obtain ⟨d, c, x, b, rfl⟩ := f.exists_ofSide
      have hnode := (Holds.frame_iff.mp h).isNode (i := 0) rfl
      rw [slot_ofSide, plug_ofSide]
      refine ⟨?_, _, hnode.read, RBNode.child_ofSide ..⟩
      rw [inorder_plug]
      cases d <;> simp [ofSide]

/-- The descent ends at the slot between the nodes that the new one comes behind and those that it
comes before. -/
theorem descend_at {less : Word w → Option Bool} {q : Word w → Bool} {f : Bool} (h : At s t p)
    (hless : ∀ y ∈ inorder t, less y = some (q y))
    (hmono : (inorder t).Pairwise (fun y z => q y → q z)) :
    ∃ p' u v, (∀ fuel, (inorder t).length < fuel →
        s.descend less fuel (slot p) f = some (slot p', f && u.isEmpty)) ∧
      plug nil p' = plug t p ∧ inorder t = u ++ v ∧ before p' = before p ++ u ∧
      after p' = v ++ after p ∧ (∀ y ∈ u, ¬ q y) ∧ ∀ y ∈ v, q y := by
  induction t generalizing p f with
  | nil =>
      refine ⟨p, [], [], fun fuel hfuel => ?_, rfl, rfl, by simp, by simp, by simp, by simp⟩
      obtain ⟨fuel, rfl⟩ : ∃ n, fuel = n + 1 := ⟨fuel - 1, by omega⟩
      rw [RBHeap.descend, load_slot h, Option.bind_some, ptr_nil, if_pos rfl]
      simp
  | node c l x r ihl ihr =>
      rw [inorder_node, List.pairwise_append, List.pairwise_cons] at hmono
      obtain ⟨hl, ⟨hxr, hr⟩, hlr⟩ := hmono
      have hx : x ≠ 0 := ((at_node h).isNode (i := 0) rfl).ne_zero
      have hround : ∀ fuel, s.descend less (fuel + 1) (slot p) f =
          if q x then s.descend less fuel (.child x .left) f
          else s.descend less fuel (.child x .right) false := by
        intro fuel
        rw [RBHeap.descend, load_slot h, Option.bind_some, ptr_node, if_neg hx,
          hless x (by simp), Option.bind_some]
      by_cases hleft : q x
      · obtain ⟨p', u, v, hd, hplug, hin, hbefore, hafter, hu, hv⟩ :=
          ihl (p := .left c x r :: p) (f := f) (at_ofSide (d := .left).mpr h)
            (fun y hy => hless y (by simp [hy])) hl
        refine ⟨p', u, v ++ x :: inorder r, fun fuel hfuel => ?_, hplug, by simp [hin], hbefore,
          by simp [hafter, after], hu, ?_⟩
        · obtain ⟨fuel, rfl⟩ : ∃ n, fuel = n + 1 := ⟨fuel - 1, by omega⟩
          rw [hround, if_pos hleft]
          refine hd fuel ?_
          simp only [inorder_node, List.length_append, List.length_cons] at hfuel
          omega
        · intro y hy
          rcases List.mem_append.mp hy with hy | hy
          · exact hv y hy
          · rcases List.mem_cons.mp hy with rfl | hy
            · exact hleft
            · exact hxr y hy hleft
      · obtain ⟨p', u, v, hd, hplug, hin, hbefore, hafter, hu, hv⟩ :=
          ihr (p := .right c l x :: p) (f := false) (at_ofSide (d := .right).mpr h)
            (fun y hy => hless y (by simp [hy])) hr
        refine ⟨p', inorder l ++ x :: u, v, fun fuel hfuel => ?_, hplug, by simp [hin],
          by simp [hbefore, before], hafter, ?_, hv⟩
        · obtain ⟨fuel, rfl⟩ : ∃ n, fuel = n + 1 := ⟨fuel - 1, by omega⟩
          rw [hround, if_neg hleft]
          have hflag : (f && (inorder l ++ x :: u).isEmpty) = (false && u.isEmpty) := by simp
          rw [hflag]
          refine hd fuel ?_
          simp only [inorder_node, List.length_append, List.length_cons] at hfuel
          omega
        · intro y hy
          rcases List.mem_append.mp hy with hy | hy
          · exact fun hyl => hleft (hlr y hy x (by simp) hyl)
          · rcases List.mem_cons.mp hy with rfl | hy
            · exact hleft
            · exact hu y hy

end RBTree

namespace RBCached

open HevTunnel.RBTree

theorem orderedInsert_split {α : Type} {r : α → α → Prop} [DecidableRel r] {x : α} {u v : List α}
    (hu : ∀ y ∈ u, ¬ r x y) (hv : ∀ y ∈ v, r x y) :
    (u ++ v).orderedInsert r x = u ++ x :: v := by
  induction u with
  | nil =>
      cases v with
      | nil => rfl
      | cons y v => exact List.orderedInsert_cons_of_le r v (hv y List.mem_cons_self)
  | cons y u ih =>
      rw [List.cons_append, List.orderedInsert_of_not_le r _ (hu y List.mem_cons_self),
        ih fun z hz => hu z (List.mem_cons_of_mem _ hz), List.cons_append]

variable [NeZero w] {s : RBCached w} {ns : List (Word w)} {x : Word w}

/-- The new node goes in front of the first node it comes before.  What the loop notes is whether it
is the first one. -/
theorem insert_lists {r : Word w → Word w → Prop} [DecidableRel r] {less : Word w → Option Bool}
    (h : s.Lists ns) (hless : ∀ y ∈ ns, less y = some (decide (r x y)))
    (hmono : ns.Pairwise (fun y z => r x y → r x z)) (hx : x ≠ 0) (ha : Aligned x)
    (hmem : s.base.mem x ≠ none) (hnot : x ∉ ns) :
    ∃ s' flag, (∀ fuel, ns.length < fuel → s.insert less fuel x = some (s', flag)) ∧
      s'.Lists (ns.orderedInsert r x) ∧ (flag ↔ s'.first = x) := by
  have hwf := h.wellFormed
  obtain ⟨t, hrep, -, rfl⟩ := h.wellFormed
  obtain ⟨p, u, v, hd, hplug, hns, hbefore, hafter, hu, hv⟩ :=
    descend_at (q := fun y => decide (r x y)) (f := true) (RBHeap.represents_iff.mp hrep) hless
      (by simpa using hmono)
  simp only [decide_eq_true_eq] at hu hv
  simp only [before, after, List.nil_append, List.append_nil] at hbefore hafter
  have hplug' : plug nil p = t := hplug
  have hfree := slot_free (at_plug.mpr (hplug' ▸ RBHeap.represents_iff.mp hrep))
  rw [hplug'] at hfree
  -- the tree operation, at the slot where the descent ends
  obtain ⟨base, ns', hexec, horder, hwf'⟩ := RBHeap.link_sound hwf ⟨hx, ha, hmem, hnot, hfree⟩
  have horder' := RBHeap.order_link x p
  rw [hplug', hbefore, hafter] at horder'
  obtain rfl := horder.unique hrep.nodup horder'
  obtain ⟨base₀, hlink, -⟩ := Option.bind_eq_some_iff.mp (hexec _ (Nat.lt_succ_self _))
  have hcolor : ∀ fuel, (inorder t).length < fuel → base₀.insertColor fuel x = some base := by
    intro fuel hfuel
    have hrun := hexec fuel hfuel
    rwa [RBHeap.exec, hlink, Option.bind_some] at hrun
  have hinsert : (inorder t).orderedInsert r x = u ++ x :: v := by rw [hns, orderedInsert_split hu hv]
  rw [hinsert]
  refine ⟨⟨base, if u.isEmpty then x else s.leftmost⟩, u.isEmpty, fun fuel hfuel => ?_,
    ⟨hwf', ?_⟩, ?_⟩
  · have hdescend : s.base.descend less fuel .root true = some (slot p, u.isEmpty) := hd fuel hfuel
    simp only [insert, insertColor, hdescend, hlink, hcolor fuel hfuel, Option.bind_eq_bind,
      Option.bind_some, Option.pure_def]
  · cases u with
    | nil => rfl
    | cons y u => simp [h.leftmost, hns]
  · cases u with
    | nil => simp [first]
    | cons y u =>
        have hy : y ≠ x := by
          rintro rfl
          exact hnot (by simp [hns])
        simpa [first, h.leftmost, hns] using hy

theorem erase_lists {a b : List (Word w)} (h : s.Lists (a ++ x :: b)) :
    ∃ s', (∀ fuel, (a ++ x :: b).length < fuel → s.erase fuel x = some s') ∧ s'.Lists (a ++ b) := by
  have hnd := h.wellFormed.nodup
  obtain ⟨base, ns', hexec, ⟨a', b', hsplit, rfl⟩, hwf'⟩ :=
    RBHeap.erase_sound h.wellFormed (x := x) (by simp [RBHeap.Op.Allowed])
  obtain ⟨rfl, rfl⟩ := RBHeap.append_cons_inj hnd hsplit
  refine ⟨⟨base, (a ++ b).head?.getD 0⟩, fun fuel hfuel => ?_, hwf', rfl⟩
  have hrun : s.base.erase fuel x = some base := hexec fuel hfuel
  cases a with
  | nil =>
      have hnext := (h.wellFormed.neighbours hfuel.le).2
      have hx : x = s.leftmost := h.leftmost.symm
      simp only [erase, if_pos hx, hnext, hrun, Option.bind_eq_bind, Option.bind_some,
        Option.pure_def, List.nil_append]
      rfl
  | cons y a =>
      have hy : x ≠ s.leftmost := by
        rw [h.leftmost]
        rintro rfl
        simp at hnd
      simp only [erase, if_neg hy, hrun, Option.bind_eq_bind, Option.bind_some, Option.pure_def]
      rw [h.leftmost]
      rfl

end RBCached

end HevTunnel
