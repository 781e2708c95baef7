import HevTunnel.RBTreeBalance
import HevTunnel.RBTreeErase
import HevTunnel.RBTreeInsert

/-! # Runs of the red-black tree in memory

A program links new nodes at free child slots and erases members, in any order; between two
operations the rest of the memory is its own.  `reachable_sound`: whatever it did, the memory holds a
balanced tree, and each operation that it may call next ends, follows no `NULL`, leaves a balanced tree
and puts the node into the in-order sequence at its slot, or takes it out. -/

namespace HevTunnel

variable {w : ℕ}

namespace RBTree

/-! ### Positions -/

section positions
variable {α : Type}

/-- Every member has a position. -/
theorem exists_plug_node [DecidableEq α] {t : RBTree α} {x : α} (hx : x ∈ inorder t) :
    ∃ c l r p, plug (.node c l x r) p = t := by
  obtain ⟨⟨c, l, y, r, p⟩, hl⟩ :=
    Option.isSome_iff_exists.mp (locate_isSome (q := (· == x)) t [] ⟨x, hx, by simp⟩)
  obtain ⟨hy, hp⟩ := locate_spec hl
  obtain rfl : y = x := by simpa using hy
  exact ⟨c, l, r, p, hp⟩

/-- The two parts of a balanced tree around a position. -/
theorem balanced_of_plug {t : RBTree α} {p : Path α} (h : IsBalanced (plug t p)) :
    ∃ c ct n, PathBalanced p c n ∧ Balanced t ct n ∧ (ct = .red → c = .red) := by
  induction p generalizing t with
  | nil =>
      obtain ⟨n, h⟩ := h
      exact ⟨.black, .black, n, .root, h, id⟩
  | cons f p ih =>
      cases f with
      | left c x r =>
          obtain ⟨c₀, ct, n, hp, ht, hc⟩ := ih (t := .node c t x r) h
          cases ht with
          | red _ hl hr =>
              obtain rfl := hc rfl
              exact ⟨_, _, n, .redLeft x hr hp, hl, id⟩
          | black _ hl hr => exact ⟨_, _, _, .blackLeft x hr hp, hl, fun _ => rfl⟩
      | right c l x =>
          obtain ⟨c₀, ct, n, hp, ht, hc⟩ := ih (t := .node c l x t) h
          cases ht with
          | red _ hl hr =>
              obtain rfl := hc rfl
              exact ⟨_, _, n, .redRight x hl hp, hr, id⟩
          | black _ hl hr => exact ⟨_, _, _, .blackRight x hl hp, hr, fun _ => rfl⟩

end positions

end RBTree

namespace RBHeap

open HevTunnel.RBTree

/-- The tree `t` lies in memory: the root pointer, the parent and child pointers and the colours are
those of `t`, and no node occurs twice. -/
structure Represents (s : RBHeap w) (t : RBTree (Word w)) : Prop where
  root : s.root = t.ptr
  stored : t.Stored s.mem 0
  nodup : (inorder t).Nodup

theorem represents_iff {s : RBHeap w} {t : RBTree (Word w)} : s.Represents t ↔ At s t [] := by
  constructor
  · rintro ⟨hroot, hst, hnd⟩
    refine ⟨hroot, ?_, ?_⟩
    · simpa using hst
    · simpa [nodes] using hnd
  · rintro ⟨hroot, howns⟩
    refine ⟨hroot, howns.get (i := 1) rfl, ?_⟩
    simpa [nodes] using howns.nodup

/-- A red-black tree with the in-order sequence `ns`. -/
def WellFormed (s : RBHeap w) (ns : List (Word w)) : Prop :=
  ∃ t, s.Represents t ∧ IsBalanced t ∧ inorder t = ns

/-- What a program does with the tree. -/
inductive Op (w : ℕ) where
  /-- `hev_rbtree_node_link` and `hev_rbtree_insert_color`. -/
  | link (x : Word w) (slot : Slot w)
  /-- `hev_rbtree_erase`. -/
  | erase (x : Word w)

def exec (fuel : ℕ) (s : RBHeap w) : Op w → Option (RBHeap w)
  | .link x slot => (s.nodeLink x slot).bind fun s => s.insertColor fuel x
  | .erase x => s.erase fuel x

/-- The slot holds `NULL`. -/
def Slot.Free (s : RBHeap w) (ns : List (Word w)) : Slot w → Prop
  | .root => s.root = 0
  | .child parent d => parent ∈ ns ∧ ∃ n, s.mem parent = some n ∧ n.child d = 0

/-- A new node, aligned as `HevRBTreeNode` is, is linked at a free slot, and a member is erased. -/
def Op.Allowed (s : RBHeap w) (ns : List (Word w)) : Op w → Prop
  | .link x slot => x ≠ 0 ∧ Aligned x ∧ s.mem x ≠ none ∧ x ∉ ns ∧ slot.Free s ns
  | .erase x => x ∈ ns

instance (s : RBHeap w) (ns : List (Word w)) : (slot : Slot w) → Decidable (slot.Free s ns)
  | .root => inferInstanceAs (Decidable (s.root = 0))
  | .child parent d =>
      decidable_of_iff (parent ∈ ns ∧ (s.mem parent).any (fun n => n.child d = 0) = true)
        (by simp [Slot.Free, Option.any_eq_true])

instance (s : RBHeap w) (ns : List (Word w)) : (op : Op w) → Decidable (op.Allowed s ns)
  | .link x slot =>
      inferInstanceAs (Decidable (x ≠ 0 ∧ x &&& 3 = 0 ∧ s.mem x ≠ none ∧ x ∉ ns ∧ slot.Free s ns))
  | .erase x => inferInstanceAs (Decidable (x ∈ ns))

/-- The in-order sequences before and after an operation: a left child comes right before its parent
and a right child right behind it. -/
def Op.Order : Op w → List (Word w) → List (Word w) → Prop
  | .link x .root, ns, ns' => ns = [] ∧ ns' = [x]
  | .link x (.child parent .left), ns, ns' =>
      ∃ a b, ns = a ++ parent :: b ∧ ns' = a ++ x :: parent :: b
  | .link x (.child parent .right), ns, ns' =>
      ∃ a b, ns = a ++ parent :: b ∧ ns' = a ++ parent :: x :: b
  | .erase x, ns, ns' => ∃ a b, ns = a ++ x :: b ∧ ns' = a ++ b

/-- The trees that a program can build, with the sequence of their nodes. -/
inductive Reachable : RBHeap w → List (Word w) → Prop
  | empty (mem : Word w → Option (RBNode w)) : Reachable ⟨0, mem⟩ []
  | step {s s' : RBHeap w} {ns ns' : List (Word w)} (op : Op w) (n : ℕ) :
      Reachable s ns → op.Allowed s ns → (∀ fuel, n ≤ fuel → s.exec fuel op = some s') →
        op.Order ns ns' → Reachable s' ns'
  /-- The program changes, allocates or frees memory that is not in the tree. -/
  | memory {s : RBHeap w} {ns : List (Word w)} (mem : Word w → Option (RBNode w)) :
      Reachable s ns → (∀ x ∈ ns, mem x = s.mem x) → Reachable ⟨s.root, mem⟩ ns

/-! ### Operations -/

section operations
variable {s : RBHeap w} {t : RBTree (Word w)} {ns : List (Word w)} {x : Word w}

/-- A free slot is the end of a path. -/
theorem exists_path {sl : Slot w} (h : s.Represents t) (hfree : sl.Free s (inorder t)) :
    ∃ p, plug nil p = t ∧ slot p = sl := by
  cases sl with
  | root =>
      refine ⟨[], ?_, rfl⟩
      have hroot : ptr t = 0 := h.root.symm.trans hfree
      exact ((represents_iff.mp h).ptr_eq_zero (i := 0) rfl).mp hroot |>.symm
  | child parent d =>
      obtain ⟨hmem, n, hn, hchild⟩ := hfree
      obtain ⟨c, l, r, p, rfl⟩ := exists_plug_node hmem
      obtain ⟨a, b, hnode⟩ := node_exists_ofSide d c l parent r
      have hat := at_plug.mpr (represents_iff.mp h)
      rw [hnode, At, Holds.tree_iff] at hat
      have hread := (hat.isNode (i := 0) rfl).read
      rw [hn, Option.some.injEq] at hread
      subst hread
      rw [RBNode.child_ofSide] at hchild
      obtain rfl := (hat.ptr_eq_zero (i := 1) rfl).mp hchild
      exact ⟨.ofSide d c parent b :: p, by rw [plug_ofSide, hnode], slot_ofSide ..⟩

theorem order_link (x : Word w) (p : Path (Word w)) :
    (Op.link x (slot p)).Order (inorder (plug nil p)) (before p ++ x :: after p) := by
  cases p with
  | nil => exact ⟨rfl, rfl⟩
  | cons f p =>
      cases f with
      | left c y r => exact ⟨before p, inorder r ++ after p, by simp [before, after], by simp [before, after]⟩
      | right c l y =>
          exact ⟨before p ++ inorder l, after p, by simp [before, after], by simp [before, after]⟩

variable [NeZero w]

theorem link_sound {sl : Slot w} (h : s.WellFormed ns) (hop : (Op.link x sl).Allowed s ns) :
    ∃ s' ns', (∀ fuel, ns.length < fuel → s.exec fuel (.link x sl) = some s') ∧
      (Op.link x sl).Order ns ns' ∧ s'.WellFormed ns' := by
  obtain ⟨t, hrep, hbal, rfl⟩ := h
  obtain ⟨hx, ha, hmem, hnot, hfree⟩ := hop
  obtain ⟨p, rfl, rfl⟩ := exists_path hrep hfree
  obtain ⟨n, hn⟩ := Option.ne_none_iff_exists'.mp hmem
  obtain ⟨c, ct, n, hp, hnil, -⟩ := balanced_of_plug hbal
  cases hnil
  obtain ⟨t', ht', hbal'⟩ := insertColor_balanced (.red x .nil .nil) hp
  have hnodes : pathNodes p = nodes (plug nil p) := by rw [nodes_plug, nodes_nil, add_zero]
  have hnot' : x ∉ pathNodes p := by
    rw [hnodes]
    exact hnot
  obtain ⟨s₁, s', hs₁, hs', h'⟩ := insert_at ht' (at_plug.mpr (represents_iff.mp hrep)) hx ha hnot' hn
  refine ⟨s', inorder t', fun fuel hfuel => ?_, ?_, t', represents_iff.mpr h', hbal', rfl⟩
  · rw [exec, hs₁, Option.bind_some]
    refine hs' fuel (lt_of_le_of_lt (length_le_card p) ?_)
    rw [hnodes]
    exact hfuel
  · rw [inorder_link ht']
    exact order_link x p

theorem erase_sound (h : s.WellFormed ns) (hop : (Op.erase x).Allowed s ns) :
    ∃ s' ns', (∀ fuel, ns.length < fuel → s.exec fuel (.erase x) = some s') ∧
      (Op.erase x).Order ns ns' ∧ s'.WellFormed ns' := by
  obtain ⟨t, hrep, hbal, rfl⟩ := h
  obtain ⟨c, l, r, p, rfl⟩ := exists_plug_node hop
  obtain ⟨c₀, ct, n, hp, ht, hc⟩ := balanced_of_plug hbal
  obtain rfl : c = ct := ht.rootColor_eq
  obtain ⟨t', ht', hbal'⟩ := eraseNode_balanced ht hp hc
  obtain ⟨s', hs', h'⟩ := erase_at ht' (at_plug.mpr (represents_iff.mp hrep))
  refine ⟨s', inorder t', fun fuel hfuel => hs' fuel hfuel.le, ?_, t', represents_iff.mpr h', hbal', rfl⟩
  exact ⟨before p ++ inorder l, inorder r ++ after p, by simp, by simp [inorder_eraseNode ht']⟩

theorem op_sound (h : s.WellFormed ns) {op : Op w} (hop : op.Allowed s ns) :
    ∃ s' ns', (∀ fuel, ns.length < fuel → s.exec fuel op = some s') ∧ op.Order ns ns' ∧
      s'.WellFormed ns' := by
  cases op with
  | link x sl => exact link_sound h hop
  | erase x => exact erase_sound h hop

end operations

/-! ### Runs -/

/-- A list without repetition has one place for a member. -/
theorem append_cons_inj {α : Type} {a b a' b' : List α} {x : α} (hnd : (a ++ x :: b).Nodup)
    (h : a ++ x :: b = a' ++ x :: b') : a = a' ∧ b = b' := by
  have hx := (List.nodup_cons.mp (List.nodup_middle.mp hnd)).1
  rw [List.mem_append, not_or] at hx
  obtain ⟨ha, -, hb⟩ := (List.append_cons_inj_of_notMem hx.1 hx.2).mp h
  exact ⟨ha, hb⟩

theorem Op.Order.unique {op : Op w} {ns ns₁ ns₂ : List (Word w)} (hnd : ns.Nodup)
    (h₁ : op.Order ns ns₁) (h₂ : op.Order ns ns₂) : ns₁ = ns₂ := by
  have hsplit : ∀ {x : Word w} {a b a' b' : List (Word w)}, ns = a ++ x :: b → ns = a' ++ x :: b' →
      a = a' ∧ b = b' := by
    rintro x a b a' b' rfl h
    exact append_cons_inj hnd h
  cases op with
  | link x sl =>
      cases sl with
      | root => exact h₁.2.trans h₂.2.symm
      | child parent d =>
          cases d with
          | left =>
              obtain ⟨a, b, hns, rfl⟩ := h₁
              obtain ⟨a', b', hns', rfl⟩ := h₂
              obtain ⟨rfl, rfl⟩ := hsplit hns hns'
              rfl
          | right =>
              obtain ⟨a, b, hns, rfl⟩ := h₁
              obtain ⟨a', b', hns', rfl⟩ := h₂
              obtain ⟨rfl, rfl⟩ := hsplit hns hns'
              rfl
  | erase x =>
      obtain ⟨a, b, hns, rfl⟩ := h₁
      obtain ⟨a', b', hns', rfl⟩ := h₂
      obtain ⟨rfl, rfl⟩ := hsplit hns hns'
      rfl

theorem WellFormed.nodup {s : RBHeap w} {ns : List (Word w)} (h : s.WellFormed ns) : ns.Nodup := by
  obtain ⟨t, hrep, -, rfl⟩ := h
  exact hrep.nodup

theorem wellFormed_empty (mem : Word w → Option (RBNode w)) : WellFormed ⟨0, mem⟩ [] :=
  ⟨nil, ⟨rfl, trivial, List.nodup_nil⟩, isBalanced_nil, rfl⟩

/-- A tree does not depend on the memory around it. -/
theorem WellFormed.congr {s : RBHeap w} {ns : List (Word w)} (h : s.WellFormed ns)
    {mem : Word w → Option (RBNode w)} (hmem : ∀ x ∈ ns, mem x = s.mem x) :
    WellFormed ⟨s.root, mem⟩ ns := by
  obtain ⟨t, hrep, hbal, rfl⟩ := h
  exact ⟨t, ⟨hrep.root, hrep.stored.congr hmem, hrep.nodup⟩, hbal, rfl⟩

section runs
variable [NeZero w] {s : RBHeap w} {ns : List (Word w)}

theorem Reachable.wellFormed (h : Reachable s ns) : s.WellFormed ns := by
  induction h with
  | empty mem => exact wellFormed_empty mem
  | @step s s' ns ns' op n _ hop hexec horder ih =>
      obtain ⟨s₁, ns₁, hs₁, horder₁, h₁⟩ := op_sound ih hop
      have hs' : s' = s₁ := Option.some.inj
        ((hexec _ (le_max_left n (ns.length + 1))).symm.trans (hs₁ _ (le_max_right n (ns.length + 1))))
      rw [hs', horder.unique ih.nodup horder₁]
      exact h₁
  | memory mem _ hmem ih => exact ih.congr hmem

/-- A program can go on with each operation that it may call. -/
theorem Reachable.exec (h : Reachable s ns) {op : Op w} (hop : op.Allowed s ns) {ns' : List (Word w)}
    (horder : op.Order ns ns') {fuel : ℕ} (hfuel : ns.length < fuel) :
    ∃ s', s.exec fuel op = some s' ∧ Reachable s' ns' := by
  obtain ⟨s', -, hs', -, -⟩ := op_sound h.wellFormed hop
  exact ⟨s', hs' fuel hfuel, .step op (ns.length + 1) h hop hs' horder⟩

/-- Every tree that a program can build is a red-black tree, and so is the tree after each operation
that it may call next.  The operation ends without following `NULL`, after no more rounds of each loop
than there are nodes and one more, and changes the in-order sequence at its slot. -/
theorem reachable_sound (h : Reachable s ns) :
    s.WellFormed ns ∧ ∀ op : Op w, op.Allowed s ns →
      ∃ s' ns', (∀ fuel, ns.length < fuel → s.exec fuel op = some s') ∧ op.Order ns ns' ∧
        s'.WellFormed ns' :=
  ⟨h.wellFormed, fun _ hop => op_sound h.wellFormed hop⟩

end runs

/-- The operation that links the node `8 * (n + 1)` behind the others. -/
def appendOp : ℕ → Op 64
  | 0 => .link 8 .root
  | n + 1 => .link (BitVec.ofNat 64 (8 * (n + 2))) (.child (BitVec.ofNat 64 (8 * (n + 1))) .right)

def ascendingNodes (n : ℕ) : List (Word 64) := (List.range n).map (fun k => BitVec.ofNat 64 (8 * (k + 1)))

/-- The nodes `8`, `16`, … are linked one behind the other. -/
def ascending : ℕ → Option (RBHeap 64)
  | 0 => some ⟨0, fun _ => some ⟨0, 0, 0⟩⟩
  | n + 1 => (ascending n).bind (fun s => s.exec 9 (appendOp n))

theorem order_appendOp (n : ℕ) : (appendOp n).Order (ascendingNodes n) (ascendingNodes (n + 1)) := by
  cases n with
  | zero => exact ⟨rfl, rfl⟩
  | succ n =>
      refine ⟨ascendingNodes n, [], ?_, ?_⟩
      · simp [ascendingNodes, List.range_succ]
      · simp [ascendingNodes, List.range_succ]

theorem allowed_appendOp : ∀ n < 5, ∀ s, ascending n = some s → (appendOp n).Allowed s (ascendingNodes n) := by
  have h : ∀ n < 5, (ascending n).all
      (fun s => decide ((appendOp n).Allowed s (ascendingNodes n))) = true := by
    decide +kernel
  intro n hn s hs
  have := h n hn
  rw [hs, Option.all_some] at this
  exact of_decide_eq_true this

theorem reachable_ascending : ∀ n ≤ 5, ∃ s, ascending n = some s ∧ Reachable s (ascendingNodes n) := by
  intro n hn
  induction n with
  | zero => exact ⟨_, rfl, .empty _⟩
  | succ n ih =>
      obtain ⟨s, hs, h⟩ := ih (by omega)
      have hlen : (ascendingNodes n).length < 9 := by
        rw [ascendingNodes, List.length_map, List.length_range]
        omega
      obtain ⟨s', hs', h'⟩ := h.exec (allowed_appendOp n (by omega) s hs) (order_appendOp n) hlen
      exact ⟨s', by rw [ascending, hs]; exact hs', h'⟩

/-- Five nodes are linked in ascending order, which has moved the root, and the first one is erased, which
moves it again. -/
theorem reachable_sound_ascending : ∃ s : RBHeap 64, Reachable s [8, 16, 24, 32, 40] ∧ s.root = 16 ∧
    s.WellFormed [8, 16, 24, 32, 40] ∧
    ∃ s' ns', (∀ fuel, 5 < fuel → s.exec fuel (.erase 8) = some s') ∧ s'.root = 32 ∧
      (Op.erase 8).Order [8, 16, 24, 32, 40] ns' ∧ s'.WellFormed ns' := by
  obtain ⟨s, hs, h⟩ := reachable_ascending 5 le_rfl
  have hroot : (ascending 5).map root = some 16 := by decide +kernel
  have hroot' : ((ascending 5).bind (fun s => s.exec 9 (.erase 8))).map root = some 32 := by decide +kernel
  rw [hs] at hroot hroot'
  obtain ⟨hwf, hops⟩ := reachable_sound h
  obtain ⟨s', ns', hs', horder, hwf'⟩ := hops (.erase 8) (by decide : (8 : Word 64) ∈ ascendingNodes 5)
  rw [Option.bind_some, hs' 9 (by decide)] at hroot'
  exact ⟨s, h, Option.some.inj hroot, hwf, s', ns', hs', Option.some.inj hroot', horder, hwf'⟩

end RBHeap

end HevTunnel
