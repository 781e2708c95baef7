import HevTunnel.RBTreeEraseColor

/-! # Erasure in memory

`hev_rbtree_erase` follows the erasure on trees (`erase_at`).  Between the erased node and its
successor there is a part of a path, which is a piece of the memory like any other: its frames stay
where they are when the successor takes the place of the node above them. -/

namespace HevTunnel

namespace RBTree

variable {w : ℕ}

/-! ### Parts of paths -/

theorem pathNodes_append {α : Type} (p₁ p₂ : Path α) :
    pathNodes (p₁ ++ p₂) = pathNodes p₁ + pathNodes p₂ := by
  induction p₁ with
  | nil => exact (zero_add _).symm
  | cons f p ih =>
      obtain ⟨d, c, x, b, rfl⟩ := f.exists_ofSide
      rw [List.cons_append, pathNodes_ofSide, pathNodes_ofSide, ih]
      ac_rfl

theorem length_le_card {α : Type} (p : Path α) : p.length ≤ (pathNodes p).card := by
  induction p with
  | nil => simp
  | cons f p ih =>
      obtain ⟨d, c, x, b, rfl⟩ := f.exists_ofSide
      simp only [List.length_cons, pathNodes_ofSide, Multiset.card_add, Multiset.card_singleton]
      omega

theorem nodes_plug {α : Type} (t : RBTree α) (p : Path α) :
    nodes (plug t p) = pathNodes p + nodes t := by
  induction p generalizing t with
  | nil => exact (zero_add _).symm
  | cons f p ih =>
      obtain ⟨d, c, x, b, rfl⟩ := f.exists_ofSide
      rw [plug_ofSide, ih, nodes_ofSide, pathNodes_ofSide]
      ac_rfl

theorem up_append (base : Word w) (p₁ p₂ : Path (Word w)) :
    up base (p₁ ++ p₂) = up (up base p₂) p₁ := by
  cases p₁ with
  | nil => rfl
  | cons f p => cases f <;> rfl

theorem rootPtr_append (q : Word w) (p₁ p₂ : Path (Word w)) :
    rootPtr q (p₁ ++ p₂) = rootPtr (rootPtr q p₁) p₂ := by
  induction p₁ generalizing q with
  | nil => rfl
  | cons f p ih =>
      obtain ⟨d, c, x, b, rfl⟩ := f.exists_ofSide
      rw [List.cons_append, rootPtr_ofSide, rootPtr_ofSide, ih]

theorem ptr_plug (t : RBTree (Word w)) (p : Path (Word w)) : ptr (plug t p) = rootPtr (ptr t) p := by
  induction p generalizing t with
  | nil => rfl
  | cons f p ih =>
      obtain ⟨d, c, x, b, rfl⟩ := f.exists_ofSide
      rw [plug_ofSide, ih, ptr_ofSide, rootPtr_ofSide]

section stored
variable {m : Word w → Option (RBNode w)}

theorem pathStored_append (base q : Word w) (p₁ p₂ : Path (Word w)) :
    PathStored m base q (p₁ ++ p₂) ↔
      PathStored m (up base p₂) q p₁ ∧ PathStored m base (rootPtr q p₁) p₂ := by
  induction p₁ generalizing q with
  | nil => exact ⟨fun h => ⟨trivial, h⟩, And.right⟩
  | cons f p ih =>
      obtain ⟨d, c, x, b, rfl⟩ := f.exists_ofSide
      rw [List.cons_append, pathStored_ofSide, pathStored_ofSide, ih, up_append, rootPtr_ofSide]
      simp only [and_assoc]

theorem stored_plug (par : Word w) (t : RBTree (Word w)) (p : Path (Word w)) :
    Stored m par (plug t p) ↔ PathStored m par (ptr t) p ∧ Stored m (up par p) t := by
  induction p generalizing t with
  | nil => exact ⟨fun h => ⟨trivial, h⟩, And.right⟩
  | cons f p ih =>
      obtain ⟨d, c, x, b, rfl⟩ := f.exists_ofSide
      rw [plug_ofSide, ih, stored_ofSide, pathStored_ofSide, ptr_ofSide, up_ofSide]
      tauto

end stored

namespace Holds

variable {s : RBHeap w} {q b : Word w} {p p₁ p₂ : Path (Word w)}
  {ps : List (Piece (Word w) (RBNode w))} {base par : Word w} {t : RBTree (Word w)}

theorem drop {r : Piece (Word w) (RBNode w)} (h : Holds s q p (r :: ps)) : Holds s q p ps :=
  h.regroup (le_add_of_nonneg_left (Multiset.zero_le _))
    fun r' hr' => h.owns.holds r' (by simp [hr'])

/-- The lower part of a path as a piece of its own. -/
theorem append_iff : Holds s q (p₁ ++ p₂) ps ↔
    Holds s (rootPtr q p₁) p₂ (path (up 0 p₂) q p₁ :: ps) := by
  have hfeet : feet (path 0 q (p₁ ++ p₂) :: ps) =
      feet (path 0 (rootPtr q p₁) p₂ :: path (up 0 p₂) q p₁ :: ps) := by
    simp only [feet_cons, foot_path, pathNodes_append]
    ac_rfl
  constructor
  · rintro ⟨hroot, howns⟩
    obtain ⟨hp, hps⟩ := List.forall_mem_cons.mp howns.holds
    obtain ⟨hp₁, hp₂⟩ := (pathStored_append ..).mp hp
    refine ⟨hroot.trans (rootPtr_append ..), howns.regroup hfeet.ge ?_⟩
    simp only [List.forall_mem_cons]
    exact ⟨hp₂, hp₁, hps⟩
  · rintro ⟨hroot, howns⟩
    have hall := howns.holds
    simp only [List.forall_mem_cons] at hall
    obtain ⟨hp₂, hp₁, hps⟩ := hall
    refine ⟨hroot.trans (rootPtr_append ..).symm, howns.regroup hfeet.le ?_⟩
    rw [List.forall_mem_cons]
    exact ⟨(pathStored_append ..).mpr ⟨hp₁, hp₂⟩, hps⟩

/-- A subtree with a position in it. -/
theorem plug_iff : Holds s b p (tree par (plug t p₁) :: ps) ↔
    Holds s b p (path par (ptr t) p₁ :: tree (up par p₁) t :: ps) :=
  cut_iff [path par (ptr t) p₁, tree (up par p₁) t] (by simp [nodes_plug])
    fun m => by simp [stored_plug]

/-- The innermost frame of a part of a path. -/
theorem segment_iff {d : Side} {c : Color} {x : Word w} {a : RBTree (Word w)} :
    Holds s b p (path base q (.ofSide d c x a :: p₁) :: ps) ↔
      Holds s b p (cell d x (up base p₁) c q (ptr a) :: tree x a :: path base x p₁ :: ps) :=
  cut_iff [cell d x (up base p₁) c q (ptr a), tree x a, path base x p₁] (by simp)
    fun m => by simp

/-- The outermost frame of a part of a path. -/
theorem segment_concat_iff {d : Side} {c : Color} {x : Word w} {a : RBTree (Word w)} :
    Holds s b p (path base q (p₁ ++ [.ofSide d c x a]) :: ps) ↔
      Holds s b p (cell d x base c (rootPtr q p₁) (ptr a) :: tree x a :: path x q p₁ :: ps) := by
  refine cut_iff [cell d x base c (rootPtr q p₁) (ptr a), tree x a, path x q p₁] ?_ fun m => ?_
  · simp only [foot_path, pathNodes_append, pathNodes_ofSide, pathNodes_nil, feet_cons, feet_nil,
      foot_cell, foot_tree]
    ac_rfl
  · simp only [holds_path, pathStored_append, up_ofSide, up_nil, pathStored_ofSide, pathStored_nil,
      and_true, List.forall_mem_cons, holds_cell, holds_tree, List.not_mem_nil, false_imp_iff,
      implies_true]
    tauto

/-- A write to the child slot at the lower end of a part of a path. -/
theorem setSegmentFocus {d : Side} {c : Color} {x : Word w} {a : RBTree (Word w)}
    (h : Holds s b p (path base q (.ofSide d c x a :: p₁) :: ps)) (new : Word w) :
    ∃ s', s.setChild d x new = some s' ∧
      Holds s' b p (path base new (.ofSide d c x a :: p₁) :: ps) := by
  obtain ⟨s', hs', h'⟩ := (segment_iff.mp h).setChild (i := 0) rfl new
  exact ⟨s', hs', segment_iff.mpr h'⟩

/-- A new parent above a part of a path. -/
theorem rebase {base' : Word w} (hp₁ : p₁ ≠ []) (hbase : Aligned base')
    (h : Holds s b p (path base q p₁ :: ps)) :
    ∃ s', s.modify (rootPtr q p₁) (RBNode.setParent base') = some s' ∧
      Holds s' b p (path base' q p₁ :: ps) := by
  rcases List.eq_nil_or_concat p₁ with rfl | ⟨p₀, f, rfl⟩
  · exact absurd rfl hp₁
  · obtain ⟨d, c, x, a, rfl⟩ := f.exists_ofSide
    rw [List.concat_eq_append] at h ⊢
    rw [segment_concat_iff] at h
    have hx := h.isNode (i := 0) rfl
    obtain ⟨s', hs', h'⟩ := h.modify (i := 0) rfl (RBNode.setParent_ofSide _ _ _ hx.parent _ base')
      hbase
    rw [rootPtr_append, rootPtr_ofSide, rootPtr_nil]
    exact ⟨s', hs', segment_concat_iff.mpr h'⟩

end Holds

/-! ### The successor -/

section leftmost
variable {α : Type}

/-- The leftmost node in its place. -/
theorem leftmost_plug (c : Color) (l : RBTree α) (x : α) (r : RBTree α) (acc : Path α) :
    plug (.node (leftmost c l x r acc).1 .nil (leftmost c l x r acc).2.1
      (leftmost c l x r acc).2.2.1) (leftmost c l x r acc).2.2.2 = plug (.node c l x r) acc := by
  induction l generalizing c x r acc with
  | nil => rfl
  | node c' l' x' r' ih _ => exact ih c' x' r' _

/-- The leftmost node is a left child, if the root is not the leftmost node. -/
theorem leftmost_frame (c : Color) (l : RBTree α) (x : α) (r : RBTree α) (c₀ : Color) (x₀ : α)
    (r₀ : RBTree α) (acc : Path α) :
    ∃ c₁ y r₁ q, (leftmost c l x r (.left c₀ x₀ r₀ :: acc)).2.2.2 = .left c₁ y r₁ :: q := by
  induction l generalizing c x r c₀ x₀ r₀ acc with
  | nil => exact ⟨c₀, x₀, r₀, acc, rfl⟩
  | node c' l' x' r' ih _ => exact ih c' x' r' c x r _

end leftmost

theorem read_of_stored {s : RBHeap w} {par : Word w} {c : Color} {l : RBTree (Word w)} {x : Word w}
    {r : RBTree (Word w)} (h : Stored s.mem par (.node c l x r)) :
    s.read x = some (RBNode.ofSide .left (pack par c) (ptr l) (ptr r)) := by
  rw [RBHeap.read, if_neg h.1.ne_zero]
  exact h.1.read

/-- The loop that looks for the successor ends at the leftmost node. -/
theorem successorLoop_eq {s : RBHeap w} (base : Word w) {c : Color} {l : RBTree (Word w)} {x : Word w}
    {r : RBTree (Word w)} {c₀ : Color} {x₀ : Word w} {r₀ : RBTree (Word w)} (acc : Path (Word w))
    (h : Stored s.mem x₀ (.node c l x r)) {fuel : ℕ} (hfuel : (inorder l).length < fuel) :
    RBHeap.successorLoop fuel s x₀ x =
      some (up base (leftmost c l x r (.left c₀ x₀ r₀ :: acc)).2.2.2,
        (leftmost c l x r (.left c₀ x₀ r₀ :: acc)).2.1) := by
  induction l generalizing fuel c x r c₀ x₀ r₀ acc with
  | nil =>
      obtain ⟨fuel, rfl⟩ := Nat.exists_eq_add_of_lt hfuel
      rw [RBHeap.successorLoop, read_of_stored h, Option.bind_some]
      rfl
  | node c' l' x' r' ih _ =>
      obtain ⟨fuel, rfl⟩ : ∃ n, fuel = n + 1 := ⟨fuel - 1, by omega⟩
      rw [RBHeap.successorLoop, read_of_stored h, Option.bind_some]
      have hne : (RBNode.ofSide .left (pack x₀ c) x' (ptr r)).left ≠ 0 := h.2.1.1.ne_zero
      rw [ptr, if_pos hne]
      refine ih _ h.2.1 ?_
      rw [inorder_node, List.length_append, List.length_cons] at hfuel
      omega

section successor
variable {s : RBHeap w} {b x y succ : Word w} {p q : Path (Word w)} {c cs : Color}
  {l r child2 : RBTree (Word w)} {ps : List (Piece (Word w) (RBNode w))}

/-- A subtree with its leftmost node as a piece of its own, which has a parent in the subtree. -/
theorem leftmost_pieces {c' : Color} {l' r' : RBTree (Word w)} {x' : Word w}
    (hleft : leftmost c' l' x' r' [.left c y r] = (cs, succ, child2, q))
    (h : Holds s b p (tree x (.node c (.node c' l' x' r') y r) :: ps)) :
    rootPtr (ptr child2) q = y ∧
      Holds s b p (path x succ q :: cell .left succ (up x q) cs 0 (ptr child2) :: tree succ child2 :: ps) := by
  have hplug := leftmost_plug c' l' x' r' [.left c y r]
  obtain ⟨c₁, z, r₁, q', hq⟩ := leftmost_frame c' l' x' r' c y r []
  simp only [hleft] at hplug hq
  subst hq
  have hroot : rootPtr (ptr child2) (.left c₁ z r₁ :: q') = y :=
    (ptr_plug (.node cs .nil succ child2) _).symm.trans (congrArg ptr hplug)
  refine ⟨hroot, ?_⟩
  have h₀ : Holds s b p (tree x (plug (.node cs .nil succ child2) (.left c₁ z r₁ :: q')) :: ps) := by
    rw [hplug]
    exact h
  have h₁ : Holds s b p (tree z (ofSide .left cs nil succ child2) ::
      path x succ (.left c₁ z r₁ :: q') :: ps) :=
    (Holds.plug_iff.mp h₀).rearrange (by simp [ofSide, up]) (by simp only [feet_cons]; ac_rfl)
  refine (Holds.tree_iff.mp h₁).rearrange ?_ ?_
  · intro r hr
    simp only [List.mem_cons, ptr_nil, up] at hr ⊢
    tauto
  · simp only [feet_cons, foot_tree, foot_cell, nodes_nil, zero_add]
    ac_rfl

/-- The right child is its own successor: nothing is done. -/
theorem detachSuccessor_near (h : Holds s b p (tree x (.node c .nil y r) :: ps)) :
    (∀ fuel, s.detachSuccessor fuel y = some (s, y, y, ptr r)) ∧
      Holds s b p (cell .left y x c 0 (ptr r) :: path y (ptr r) [] :: tree y r :: ps) := by
  have h₀ := (Holds.tree_iff (d := .left)).mp h
  have hread := read_of_stored (h.stored (i := 0) rfl)
  refine ⟨fun fuel => ?_, h₀.regroup (le_of_eq ?_) ?_⟩
  · simp only [RBHeap.detachSuccessor, hread, Option.bind_eq_bind, Option.bind_some]
    rfl
  · simp
  · simp only [List.forall_mem_cons, holds_path, pathStored_nil, true_and]
    exact ⟨h₀.isNode (i := 0) rfl, h₀.stored (i := 2) rfl,
      fun r' hr' => h₀.owns.holds r' (by simp [hr'])⟩

/-- A successor further down is cut out: its child goes up to its parent, and the subtree down to the
right of it. -/
theorem detachSuccessor_far {c' : Color} {l' r' : RBTree (Word w)} {x' : Word w}
    (hleft : leftmost c' l' x' r' [.left c y r] = (cs, succ, child2, q))
    (h : Holds s b p (tree x (.node c (.node c' l' x' r') y r) :: ps)) :
    ∃ s', (∀ fuel, (inorder l').length < fuel →
        s.detachSuccessor fuel y = some (s', up succ q, succ, ptr child2)) ∧
      Holds s' b p (cell .left succ (up x q) cs 0 (rootPtr (ptr child2) q) ::
        path succ (ptr child2) q :: tree succ child2 :: ps) := by
  have hread := read_of_stored (h.stored (i := 0) rfl)
  have hst := (h.stored (i := 0) rfl).2.1
  have hloop : ∀ fuel, (inorder l').length < fuel →
      RBHeap.successorLoop fuel s y x' =
        some (up succ (leftmost c' l' x' r' [.left c y r]).2.2.2,
          (leftmost c' l' x' r' [.left c y r]).2.1) :=
    fun fuel hfuel => successorLoop_eq succ [] hst hfuel
  obtain ⟨hroot, h₂⟩ := leftmost_pieces hleft h
  obtain ⟨c₁, z, r₁, q', hq⟩ := leftmost_frame c' l' x' r' c y r []
  simp only [hleft] at hloop hq
  subst hq
  have hsucc := h₂.isNode (i := 1) rfl
  obtain ⟨s₃, hs₃, h₃⟩ := Holds.setSegmentFocus (d := .left) h₂ (ptr child2)
  obtain ⟨s₄, hs₄, h₄⟩ := h₃.setOther (i := 1) rfl y
  obtain ⟨s₅, hs₅, h₅⟩ := Holds.rebase (by simp) hsucc.aligned h₄
  have hs₄' : s₃.setChild .right succ y = some s₄ := hs₄
  have hs₅' : s₄.modify y (RBNode.setParent succ) = some s₅ := by
    rw [← hroot]
    exact hs₅
  rw [hroot]
  refine ⟨s₅, fun fuel hfuel => ?_, h₅.rearrange ?_ ?_⟩
  · have hne : (RBNode.ofSide .left (pack x c) x' (ptr r)).left ≠ 0 := hst.1.ne_zero
    rw [RBHeap.detachSuccessor, hread, Option.bind_eq_bind, Option.bind_some, ptr, if_neg hne]
    simp only [RBNode.left_ofSide, hloop fuel hfuel, h₂.read (i := 1) rfl, RBNode.right_ofSide, up,
      hs₃, hs₄', hs₅', Option.bind_eq_bind, Option.bind_some, Option.pure_def]
  · intro r hr
    simp only [List.set_cons_zero, List.mem_cons, Frame.ofSide] at hr ⊢
    tauto
  · simp only [List.set_cons_zero, feet_cons, Frame.ofSide]
    ac_rfl

/-- The successor below the right child, cut out of its place. -/
theorem detachSuccessor_holds (hleft : leftmost c l y r [] = (cs, succ, child2, q))
    (h : Holds s b p (tree x (.node c l y r) :: ps)) :
    ∃ s' par a, (∀ fuel, (inorder l).length ≤ fuel →
        s.detachSuccessor fuel y = some (s', up succ q, succ, ptr child2)) ∧
      Holds s' b p (cell .left succ par cs a (rootPtr (ptr child2) q) :: path succ (ptr child2) q ::
        tree succ child2 :: ps) := by
  cases l with
  | nil =>
      cases hleft
      obtain ⟨hs, h'⟩ := detachSuccessor_near h
      exact ⟨s, x, 0, fun fuel _ => hs fuel, h'⟩
  | node c' l' x' r' =>
      obtain ⟨s', hs', h'⟩ := detachSuccessor_far hleft h
      refine ⟨s', up x q, 0, fun fuel hfuel => hs' fuel ?_, h'⟩
      rw [inorder_node, List.length_append, List.length_cons] at hfuel
      omega

end successor

/-! ### The node -/

theorem eraseSuccessor_eq {α : Type} [DecidableEq α] (c : Color) (l : RBTree α) (p : Path α)
    (cs : Color) (succ : α) (child2 : RBTree α) (q : Path α) : eraseSuccessor c l p (cs, succ, child2, q) =
      if child2 = nil ∧ cs = .black then eraseColor (blacken child2) (q ++ .right c l succ :: p)
      else some (plug (blacken child2) (q ++ .right c l succ :: p)) := by
  cases child2 <;> simp [eraseSuccessor, paint]

theorem card_nodes_node {α : Type} (c : Color) (l : RBTree α) (x : α) (r : RBTree α) :
    (nodes (.node c l x r)).card = (nodes l).card + (nodes r).card + 1 := by
  simp only [nodes, inorder_node, Multiset.coe_card, List.length_append, List.length_cons]
  omega

theorem card_plug_node {α : Type} (c : Color) (l : RBTree α) (x : α) (r : RBTree α) (p : Path α) :
    (nodes (plug (.node c l x r) p)).card =
      (pathNodes p).card + ((nodes l).card + (nodes r).card + 1) := by
  rw [nodes_plug, Multiset.card_add, card_nodes_node]

/-- The nodes of a subtree are those of the path to its leftmost node, that node and its child. -/
theorem card_leftmost {α : Type} {c cs : Color} {l r child2 : RBTree α} {y succ : α} {q : Path α}
    (hleft : leftmost c l y r [] = (cs, succ, child2, q)) :
    (nodes (.node c l y r)).card = (pathNodes q).card + ((nodes child2).card + 1) := by
  have hplug := leftmost_plug c l y r []
  simp only [hleft] at hplug
  rw [← plug.eq_1 (.node c l y r), ← hplug, nodes_plug, Multiset.card_add, card_nodes_node]
  simp

/-- The pieces of a node with its children. -/
theorem at_node {s : RBHeap w} {p : Path (Word w)} {c : Color} {x : Word w} {l r : RBTree (Word w)}
    (h : At s (.node c l x r) p) :
    Holds s x p [cell .left x (up 0 p) c (ptr l) (ptr r), tree x l, tree x r] :=
  (Holds.tree_iff (d := .left)).mp h

section unlink
variable [NeZero w] {s : RBHeap w} {p q : Path (Word w)} {c cs : Color} {x succ : Word w}
  {l r child2 : RBTree (Word w)}

theorem moveChild_holds {b par parent a a' : Word w} {ps : List (Piece (Word w) (RBNode w))} {i j : ℕ}
    (hi : ps[i]? = some (cell .left succ par cs a a')) (hj : ps[j]? = some (tree succ child2))
    (hparent : Aligned parent) (h : Holds s b p ps) :
    ∃ s', s.moveChild parent succ (ptr child2) =
        some (s', if child2 = nil ∧ cs = .black then parent else 0) ∧
      Holds s' b p (ps.set j (tree parent (blacken child2))) := by
  by_cases hnil : child2 = nil
  · subst hnil
    refine ⟨s, ?_, h.root, h.owns.replace (i := j + 1) hj rfl trivial fun _ _ => rfl⟩
    simp [RBHeap.moveChild, h.read hi, RBNode.isBlack_ofSide _ _ _ (h.isNode hi).parent]
  · obtain ⟨s', hs', h'⟩ := h.setParentColorTree hj hnil hparent .black
    refine ⟨s', ?_, h'⟩
    rw [RBHeap.moveChild, if_pos (mt (h.ptr_eq_zero hj).mp hnil), hs', Option.map_some,
      if_neg (fun hc => hnil hc.1)]

/-- The successor takes the place of the node. -/
theorem replaceBySuccessor_at {par a r₀ : Word w} (hl : l ≠ nil)
    (h : Holds s x p [cell .left succ par cs a (rootPtr (ptr child2) q), path succ (ptr child2) q,
      tree succ child2, cell .left x (up 0 p) c (ptr l) r₀, tree x l]) :
    ∃ s', s.replaceBySuccessor x (up succ q) succ (ptr child2) =
        some (s', if child2 = nil ∧ cs = .black then up succ q else 0) ∧
      At s' (blacken child2) (q ++ .right c l succ :: p) := by
  have hx := h.isNode (i := 3) rfl
  have hsucc := h.isNode (i := 0) rfl
  have hq : Aligned (up succ q) := PathStored.aligned_up (h.get (i := 1) rfl) hsucc.aligned
  obtain ⟨s₁, hs₁, h₁⟩ := h.setChild (i := 0) rfl (ptr l)
  obtain ⟨s₂, hs₂, h₂⟩ := h₁.setParentTree (i := 4) rfl hl hsucc.aligned
  obtain ⟨s₃, hs₃, h₃⟩ := h₂.changeChild hx.ne_zero (h.not_mem_path (i := 3) rfl) succ
  obtain ⟨s₄, hs₄, h₄⟩ := moveChild_holds (i := 0) (j := 2) rfl rfl hq h₃
  obtain ⟨s₅, hs₅, h₅⟩ := h₄.modify (i := 0) rfl
    (f := fun m => { m with parentColor := pack (up 0 p) c }) (RBNode.setWord_ofSide ..) hx.parent
  refine ⟨s₅, ?_, ?_⟩
  · simp only [RBHeap.replaceBySuccessor, h.read (i := 3) rfl, h₂.read (i := 3) rfl,
      RBNode.left_ofSide, RBNode.parentColor_ofSide, RBNode.parent_ofSide _ _ _ hx.parent,
      Option.bind_eq_bind, Option.bind_some, hs₁, hs₂, hs₃, hs₄, hs₅, Option.pure_def]
  · rw [At, up_append, Holds.append_iff, ptr_paint, ← Frame.ofSide, up_ofSide, Holds.frame_iff]
    have h₆ : Holds s₅ succ p [cell .left x (up 0 p) c (ptr l) r₀,
        cell Side.left.other succ (up 0 p) c (rootPtr (ptr child2) q) (ptr l), tree succ l,
        path succ (ptr child2) q, tree (up succ q) (blacken child2)] := by
      rw [cell_other]
      exact h₅.rearrange (by simp) (by simp only [List.set_cons_zero, List.set_cons_succ, feet_cons]; ac_rfl)
    exact h₆.drop

/-- The repair that the erasure calls for. -/
theorem repair_at {t t' : RBTree (Word w)} {rebalance : Word w} (deficient : Prop)
    [Decidable deficient] (hnil : deficient → t = nil) (h : At s t p)
    (ht' : (if deficient then eraseColor t p else some (plug t p)) = some t')
    (hreb : rebalance = if deficient then up 0 p else 0) :
    ∃ s', (∀ fuel, p.length ≤ fuel →
        (if rebalance ≠ 0 then RBHeap.eraseLoop fuel s 0 rebalance else some s) = some s') ∧
      At s' t' [] := by
  subst hreb
  by_cases hdef : deficient
  · obtain rfl := hnil hdef
    rw [if_pos hdef] at ht' ⊢
    by_cases hp : p = []
    · subst hp
      cases ht'
      exact ⟨s, fun fuel _ => by simp, h⟩
    · obtain ⟨s', hs', h'⟩ := eraseLoop_at hp ht' h
      refine ⟨s', fun fuel hfuel => ?_, h'⟩
      rw [if_pos (h.up_ne_zero hp)]
      exact hs' fuel hfuel
  · rw [if_neg hdef] at ht' ⊢
    cases ht'
    exact ⟨s, fun fuel _ => by simp, at_plug.mp h⟩

/-- `_hev_rbtree_erase` of a node without a left child. -/
theorem unlink_right (h : At s (.node c nil x r) p) :
    ∃ s', (∀ fuel, s.unlink fuel x = some (s', if r = nil ∧ c = .black then up 0 p else 0)) ∧
      At s' (paint c r) p := by
  have h := at_node h
  have hx := h.isNode (i := 0) rfl
  obtain ⟨s₁, hs₁, h₁⟩ := h.changeChild hx.ne_zero (h.not_mem_path (i := 0) rfl) (ptr r)
  by_cases hr : r = nil
  · subst hr
    rw [ptr_nil] at hs₁
    refine ⟨s₁, fun fuel => ?_, h₁.drop.drop.regroup le_rfl (by simp [paint])⟩
    simp only [RBHeap.unlink, h.read (i := 0) rfl, RBNode.left_ofSide, RBNode.right_ofSide, ptr_nil,
      RBNode.parent_ofSide _ _ _ hx.parent, RBNode.isBlack_ofSide _ _ _ hx.parent, hs₁,
      Option.bind_eq_bind, Option.bind_some, if_true, ne_eq, not_true_eq_false, if_false, true_and,
      decide_eq_true_eq, Option.pure_def]
  · obtain ⟨s₂, hs₂, h₂⟩ := h₁.modifyTree (i := 2) rfl hr
      (f := fun m => { m with parentColor := pack (up 0 p) c }) (fun _ _ _ => RBNode.setWord_ofSide ..)
      hx.parent
    refine ⟨s₂, fun fuel => ?_, ?_⟩
    · have hptr : ptr r ≠ 0 := mt (h.ptr_eq_zero (i := 2) rfl).mp hr
      simp only [RBHeap.unlink, h.read (i := 0) rfl, RBNode.left_ofSide, RBNode.right_ofSide, ptr_nil,
        RBNode.parent_ofSide _ _ _ hx.parent, RBNode.parentColor_ofSide, hs₁, hs₂, if_pos hptr,
        Option.bind_eq_bind, Option.bind_some, if_true, hr, false_and, if_false, Option.pure_def]
    · rw [At, ptr_paint]
      exact h₂.drop.drop

omit [NeZero w] in
/-- `_hev_rbtree_erase` of a node without a right child. -/
theorem unlink_left (hl : l ≠ nil) (h : At s (.node c l x nil) p) :
    ∃ s', (∀ fuel, s.unlink fuel x = some (s', 0)) ∧ At s' (paint c l) p := by
  have h := at_node h
  have hx := h.isNode (i := 0) rfl
  have hptr : ptr l ≠ 0 := mt (h.ptr_eq_zero (i := 1) rfl).mp hl
  obtain ⟨s₁, hs₁, h₁⟩ := h.modifyTree (i := 1) rfl hl
    (f := fun m => { m with parentColor := pack (up 0 p) c }) (fun _ _ _ => RBNode.setWord_ofSide ..)
    hx.parent
  obtain ⟨s₂, hs₂, h₂⟩ := h₁.changeChild hx.ne_zero (h.not_mem_path (i := 0) rfl) (ptr l)
  refine ⟨s₂, fun fuel => ?_, ?_⟩
  · simp only [RBHeap.unlink, h.read (i := 0) rfl, RBNode.left_ofSide, RBNode.right_ofSide, ptr_nil,
      RBNode.parent_ofSide _ _ _ hx.parent, RBNode.parentColor_ofSide, if_neg hptr, if_true, hs₁, hs₂,
      Option.bind_eq_bind, Option.bind_some, Option.pure_def]
  · rw [At, ptr_paint]
    refine h₂.drop.regroup (le_of_eq ?_) ?_
    · simp
    · simpa using h₂.stored (i := 1) rfl

/-- `_hev_rbtree_erase` of a node with two children. -/
theorem unlink_both {cr : Color} {rl : RBTree (Word w)} {rx : Word w} {rr : RBTree (Word w)}
    (hl : l ≠ nil) (hleft : leftmost cr rl rx rr [] = (cs, succ, child2, q))
    (h : At s (.node c l x (.node cr rl rx rr)) p) :
    ∃ s', (∀ fuel, (inorder rl).length ≤ fuel → s.unlink fuel x =
        some (s', if child2 = nil ∧ cs = .black then up succ q else 0)) ∧
      At s' (blacken child2) (q ++ .right c l succ :: p) := by
  have h := at_node h
  have hptr : ptr l ≠ 0 := mt (h.ptr_eq_zero (i := 1) rfl).mp hl
  have hrx : rx ≠ 0 := (h.stored (i := 2) rfl).1.ne_zero
  have h₀ : Holds s x p [tree x (.node cr rl rx rr), cell .left x (up 0 p) c (ptr l) rx, tree x l] :=
    h.rearrange (by simp) (by simp only [feet_cons]; ac_rfl)
  obtain ⟨s₁, par, a, hs₁, h₁⟩ := detachSuccessor_holds hleft h₀
  obtain ⟨s₂, hs₂, h₂⟩ := replaceBySuccessor_at hl h₁
  refine ⟨s₂, fun fuel hfuel => ?_, h₂⟩
  rw [RBHeap.unlink, h.read (i := 0) rfl, Option.bind_eq_bind, Option.bind_some]
  simp only [RBNode.left_ofSide, RBNode.right_ofSide, if_neg hptr, ptr_node, if_neg hrx,
    hs₁ fuel hfuel, Option.bind_eq_bind, Option.bind_some]
  exact hs₂

/-- `hev_rbtree_erase` with what its first part leaves behind. -/
theorem erase_of_unlink {s₁ : RBHeap w} {t t' : RBTree (Word w)} {n bound : ℕ} {rebalance : Word w}
    (deficient : Prop) [Decidable deficient] (hnil : deficient → t = nil)
    (hs₁ : ∀ fuel, n ≤ fuel → s.unlink fuel x = some (s₁, rebalance)) (h₁ : At s₁ t p)
    (ht' : (if deficient then eraseColor t p else some (plug t p)) = some t')
    (hreb : rebalance = if deficient then up 0 p else 0) (hn : n ≤ bound)
    (hp : p.length ≤ bound) :
    ∃ s', (∀ fuel, bound ≤ fuel → s.erase fuel x = some s') ∧ At s' t' [] := by
  obtain ⟨s', hs', h'⟩ := repair_at deficient hnil h₁ ht' hreb
  refine ⟨s', fun fuel hfuel => ?_, h'⟩
  rw [RBHeap.erase, hs₁ fuel (hn.trans hfuel), Option.bind_eq_bind, Option.bind_some]
  exact hs' fuel (hp.trans hfuel)

/-- The erasure of a node with two children. -/
theorem erase_both {t' : RBTree (Word w)} {cr : Color} {rl rr : RBTree (Word w)} {y : Word w}
    (hl : l ≠ nil) (her : eraseNode c l (.node cr rl y rr) p = some t')
    (h : At s (.node c l x (.node cr rl y rr)) p) :
    ∃ s', (∀ fuel, (nodes (plug (.node c l x (.node cr rl y rr)) p)).card ≤ fuel →
      s.erase fuel x = some s') ∧ At s' t' [] := by
  obtain ⟨cs, succ, child2, q, hleft⟩ : ∃ cs succ child2 q,
      leftmost cr rl y rr [] = (cs, succ, child2, q) := ⟨_, _, _, _, rfl⟩
  have hcard := card_plug_node c l x (.node cr rl y rr) p
  have hq := card_leftmost hleft
  obtain ⟨s₁, hs₁, h₁⟩ := unlink_both hl hleft h
  refine erase_of_unlink (child2 = nil ∧ cs = .black) ?_ hs₁ h₁ ?_ ?_ ?_ ?_
  · rintro ⟨rfl, -⟩
    rfl
  · rw [← eraseSuccessor_eq, ← hleft, ← her]
    cases l with
    | nil => exact absurd rfl hl
    | node cl ll lx lr => rfl
  · rw [up_append]
    rfl
  · have hrl : (nodes rl).card = (inorder rl).length := Multiset.coe_card _
    rw [card_nodes_node] at hcard
    omega
  · have hlen := length_le_card (q ++ .right c l succ :: p)
    have hright := pathNodes_ofSide .right c succ l p
    rw [Frame.ofSide] at hright
    simp only [pathNodes_append, hright, Multiset.card_add, Multiset.card_singleton] at hlen
    omega

/-- `hev_rbtree_erase` follows the erasure on trees, in no more rounds than there are nodes. -/
theorem erase_at {t' : RBTree (Word w)} (her : eraseNode c l r p = some t')
    (h : At s (.node c l x r) p) :
    ∃ s', (∀ fuel, (nodes (plug (.node c l x r) p)).card ≤ fuel → s.erase fuel x = some s') ∧
      At s' t' [] := by
  have hcard := card_plug_node c l x r p
  have hp := length_le_card p
  by_cases hl : l = nil
  · subst hl
    obtain ⟨s₁, hs₁, h₁⟩ := unlink_right h
    refine erase_of_unlink (n := 0) (r = nil ∧ c = .black) ?_ (fun fuel _ => hs₁ fuel) h₁ ?_ rfl
      (by omega) (by omega)
    · rintro ⟨rfl, -⟩
      rfl
    · rw [← her]
      cases r <;> simp [eraseNode, paint]
  cases r with
  | node cr rl y rr => exact erase_both hl her h
  | nil =>
      obtain ⟨s₁, hs₁, h₁⟩ := unlink_left hl h
      refine erase_of_unlink (n := 0) False False.elim (fun fuel _ => hs₁ fuel) h₁ ?_ (by simp)
        (by omega) (by omega)
      rw [← her]
      cases l with
      | nil => exact absurd rfl hl
      | node cl ll lx lr => simp [eraseNode]

end unlink

end RBTree

end HevTunnel
