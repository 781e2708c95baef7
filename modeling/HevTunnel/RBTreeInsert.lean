import HevTunnel.RBTreeSteps

/-! # Insertion in memory

`hev_rbtree_insert_color` follows the loop on trees: if `insertColor t p` has a result, then the loop
on a memory in which `t` lies below `p` ends, and the result lies in the memory after it
(`insertLoop_at`). -/

namespace HevTunnel

namespace RBTree

variable {w : ℕ}

/-! ### Cases 2 and 3 -/

/-- Cases 2 and 3 on trees, for a parent at the side `d` of the grandparent. -/
def insertRotate {α : Type} : Side → RBTree α → Frame α → Color → α → RBTree α → Option (RBTree α)
  | .left => insertRotateLeft
  | .right => insertRotateRight

section trees
variable {α : Type} (d : Side) (c ct cg : Color) (t b u nl nr : RBTree α) (px g n : α) (p : Path α)

theorem insertRotate_outer : insertRotate d t (.ofSide d c px b) cg g u =
    some (ofSide d cg t px (ofSide d .red (blacken b) g u)) := by cases d <;> rfl

theorem insertRotate_inner : insertRotate d (ofSide d ct nl n nr) (.ofSide d.other c px b) cg g u =
    some (ofSide d cg (ofSide d .red b px (blacken nl)) n (ofSide d .red (blacken nr) g u)) := by
  cases d <;> rfl

theorem insertColor_ofSide (d₁ : Side) :
    insertColor t (.ofSide d₁ c px b :: .ofSide d cg g u :: p) =
      if c = .black then some (plug t (.ofSide d₁ c px b :: .ofSide d cg g u :: p))
      else if u.rootColor = .red then
        insertColor (ofSide d .red (ofSide d₁ .black t px b) g (blacken u)) p
      else (insertRotate d t (.ofSide d₁ c px b) cg g u).map (plug · p) := by
  cases d <;> cases d₁ <;> rfl

end trees

section rotate
variable {s : RBHeap w} {p : Path (Word w)} {ps : List (Piece (Word w) (RBNode w))} {d : Side}

/-- Case 3 at the grandparent `g`: the parent takes its place, and `b` its child. -/
theorem insertCase3_holds {g px par a u₀ u : Word w} {c cg : Color} {b : RBTree (Word w)}
    (h : Holds s g p (cell d px par c a (ptr b) :: cell d g (up 0 p) cg u₀ u :: tree px b :: ps)) :
    ∃ s', s.insertCase3 d px g (ptr b) = some s' ∧
      Holds s' px p (cell d px (up 0 p) cg a g :: cell d g px .red (ptr b) u ::
        tree g (blacken b) :: ps) := by
  obtain ⟨s₁, hs₁, h₁⟩ := h.setChild (i := 1) rfl (ptr b)
  obtain ⟨s₂, hs₂, h₂⟩ := h₁.setOther (i := 0) rfl g
  obtain ⟨s₃, hs₃, h₃⟩ := h₂.adopt (i := 2) rfl (h.isNode (i := 1) rfl).aligned
  obtain ⟨s₄, hs₄, h₄⟩ := h₃.rotateSetParents (i := 1) (j := 0) rfl rfl (by decide) .red
  refine ⟨s₄, ?_, h₄⟩
  simp only [RBHeap.insertCase3, Option.bind_eq_bind, Option.bind_some, hs₁, hs₂, hs₃, hs₄]

/-- Case 2 at the parent `px` when the node `n` is its inner child. -/
theorem insertCase2_inner {g px par a n par' : Word w} {c : Color} {nl nr : RBTree (Word w)}
    (h : Holds s g p (cell d px par c a n :: cell d n par' .red (ptr nl) (ptr nr) :: tree n nl ::
      tree n nr :: ps)) :
    ∃ s', s.insertCase2 d n px = some (s', n, ptr nr) ∧
      Holds s' g p (cell d px n .red a (ptr nl) :: cell d n par' .red px (ptr nr) ::
        tree px (blacken nl) :: tree n nr :: ps) := by
  obtain ⟨s₁, hs₁, h₁⟩ := h.setOther (i := 0) rfl (ptr nl)
  obtain ⟨s₂, hs₂, h₂⟩ := h₁.setChild (i := 1) rfl px
  obtain ⟨s₃, hs₃, h₃⟩ := h₂.adopt (i := 2) rfl (h.isNode (i := 0) rfl).aligned
  obtain ⟨s₄, hs₄, h₄⟩ := h₃.setParentColor (i := 0) rfl (h.isNode (i := 1) rfl).aligned .red
  refine ⟨s₄, ?_, h₄⟩
  simp only [RBHeap.insertCase2, h.read (i := 0) rfl, h.read (i := 1) rfl, Option.bind_eq_bind,
    Option.bind_some, RBNode.child_other_ofSide, RBNode.child_ofSide, if_true, hs₁, hs₂, hs₃, hs₄,
    h₄.read (i := 1) rfl, Option.pure_def]

/-- Case 2 does nothing when the node is the outer child. -/
theorem insertCase2_outer {g px par n b : Word w} {c : Color}
    (h : Holds s g p (cell d px par c n b :: ps)) (hne : n ≠ b) :
    s.insertCase2 d n px = some (s, px, b) := by
  simp only [RBHeap.insertCase2, h.read (i := 0) rfl, Option.bind_eq_bind, Option.bind_some,
    RBNode.child_other_ofSide, if_neg hne, Option.pure_def]

/-- Case 3 alone, for the outer child `t` of its red parent. -/
theorem insertRotate_at_outer {g px u₀ : Word w} {c cg : Color} {t b u : RBTree (Word w)}
    (ht : t ≠ nil)
    (h : Holds s g p [cell d px g c (ptr t) (ptr b), cell d g (up 0 p) cg u₀ (ptr u), tree px b,
      tree px t, tree g u]) :
    ∃ s' s'' parent tmp t', s.insertCase2 d (ptr t) px = some (s', parent, tmp) ∧
      s'.insertCase3 d parent g tmp = some s'' ∧
      insertRotate d t (.ofSide d c px b) cg g u = some t' ∧ At s'' t' p := by
  have hne : ptr t ≠ ptr b := h.ptr_ne (i := 3) (j := 2) rfl rfl (by decide) ht
  obtain ⟨s', hs', h'⟩ := insertCase3_holds h
  refine ⟨s, s', px, ptr b, _, insertCase2_outer h hne, hs', insertRotate_outer .., ?_⟩
  refine h'.fold (ptr_ofSide ..) (le_of_eq ?_) ?_
  · simp only [feet_cons, feet_nil, foot_cell, foot_tree, nodes_ofSide, nodes_paint]
    ac_rfl
  · simp only [stored_ofSide, ptr_ofSide, ptr_paint]
    exact ⟨h'.isNode (i := 0) rfl, h'.stored (i := 3) rfl, h'.isNode (i := 1) rfl,
      h'.stored (i := 2) rfl, h'.stored (i := 4) rfl⟩

/-- Cases 2 and 3 for the inner child `n` of its red parent. -/
theorem insertRotate_at_inner {g px n u₀ : Word w} {c cg : Color} {nl nr b u : RBTree (Word w)}
    (h : Holds s g p [cell d px g c (ptr b) n, cell d g (up 0 p) cg u₀ (ptr u), tree px b,
      tree px (ofSide d .red nl n nr), tree g u]) :
    ∃ s' s'' parent tmp t', s.insertCase2 d n px = some (s', parent, tmp) ∧
      s'.insertCase3 d parent g tmp = some s'' ∧
      insertRotate d (ofSide d .red nl n nr) (.ofSide d.other c px b) cg g u = some t' ∧
      At s'' t' p := by
  have h₀ : Holds s g p [tree px (ofSide d .red nl n nr), cell d px g c (ptr b) n,
      cell d g (up 0 p) cg u₀ (ptr u), tree px b, tree g u] :=
    h.rearrange (by simp) (by simp only [feet_cons]; ac_rfl)
  have h₁ : Holds s g p [cell d px g c (ptr b) n, cell d n px .red (ptr nl) (ptr nr), tree n nl,
      tree n nr, cell d g (up 0 p) cg u₀ (ptr u), tree px b, tree g u] :=
    (Holds.tree_iff.mp h₀).rearrange (by simp) (by simp only [feet_cons]; ac_rfl)
  obtain ⟨s₂, hs₂, h₂⟩ := insertCase2_inner h₁
  have h₂' : Holds s₂ g p [cell d n px .red px (ptr nr), cell d g (up 0 p) cg u₀ (ptr u), tree n nr,
      cell d px n .red (ptr b) (ptr nl), tree px (blacken nl), tree px b, tree g u] :=
    h₂.rearrange (by simp) (by simp only [feet_cons]; ac_rfl)
  obtain ⟨s₃, hs₃, h₃⟩ := insertCase3_holds h₂'
  refine ⟨s₂, s₃, n, ptr nr, _, hs₂, hs₃, insertRotate_inner .., ?_⟩
  refine h₃.fold (ptr_ofSide ..) (le_of_eq ?_) ?_
  · simp only [feet_cons, feet_nil, foot_cell, foot_tree, nodes_ofSide, nodes_paint]
    ac_rfl
  · simp only [stored_ofSide, ptr_ofSide, ptr_paint]
    exact ⟨h₃.isNode (i := 0) rfl,
      ⟨h₃.isNode (i := 3) rfl, h₃.stored (i := 5) rfl, h₃.stored (i := 4) rfl⟩,
      h₃.isNode (i := 1) rfl, h₃.stored (i := 2) rfl, h₃.stored (i := 6) rfl⟩

/-- Cases 2 and 3 for the node `t` below its red parent. -/
theorem insertRotate_at {g px u₀ : Word w} {c cg : Color} {d₁ : Side} {t b u : RBTree (Word w)}
    (ht : t.rootColor = .red)
    (h : Holds s g p [cell d₁ px g c (ptr t) (ptr b), cell d g (up 0 p) cg u₀ (ptr u), tree px b,
      tree px t, tree g u]) :
    ∃ s' s'' parent tmp t', s.insertCase2 d (ptr t) px = some (s', parent, tmp) ∧
      s'.insertCase3 d parent g tmp = some s'' ∧
      insertRotate d t (.ofSide d₁ c px b) cg g u = some t' ∧ At s'' t' p := by
  cases t with
  | nil => cases ht
  | node ct l n r =>
      obtain rfl : ct = .red := ht
      rcases d₁.eq_or_eq_other d with rfl | rfl
      · exact insertRotate_at_outer (by simp) h
      · obtain ⟨nl, nr, hnode⟩ := node_exists_ofSide d .red l n r
        rw [hnode, cell_other, ptr_ofSide] at h
        rw [hnode, ptr_ofSide]
        exact insertRotate_at_inner h

end rotate

/-! ### One round -/

section round
variable {s : RBHeap w} {t b u : RBTree (Word w)} {p : Path (Word w)} {d d₁ : Side}
  {c cg : Color} {px g : Word w}

/-- The root is painted black. -/
theorem insertRound_root (ht : t ≠ nil) (h : At s t []) :
    ∃ s', s.insertRound (ptr t) 0 = some (s', none) ∧ At s' (blacken t) [] := by
  obtain ⟨s', hs', h'⟩ := h.setParentColorTree (i := 0) rfl ht aligned_zero .black
  refine ⟨s', ?_, ?_⟩
  · simp only [RBHeap.insertRound, if_true, hs', Option.bind_eq_bind, Option.bind_some,
      Option.pure_def]
  · rw [At, ptr_paint]
    exact h'

/-- The pieces around a red parent. -/
theorem at_red (h : At s t (.ofSide d₁ .red px b :: .ofSide d cg g u :: p)) :
    Holds s g p [cell d₁ px g .red (ptr t) (ptr b), cell d g (up 0 p) cg px (ptr u), tree px b,
      tree px t, tree g u] := by
  rw [At, up_ofSide, Holds.frame_iff, up_ofSide, Holds.frame_iff] at h
  exact h.rearrange (by simp) (by simp only [feet_cons]; ac_rfl)

variable [NeZero w]

/-- Below a black parent nothing is left to do. -/
theorem insertRound_black (h : At s t (.ofSide d .black px b :: p)) :
    s.insertRound (ptr t) px = some (s, none) := by
  rw [At, Holds.frame_iff] at h
  have hx := h.isNode (i := 0) rfl
  simp only [RBHeap.insertRound, if_neg hx.ne_zero, h.read (i := 0) rfl, Option.bind_eq_bind,
    Option.bind_some, RBNode.isBlack_ofSide _ _ _ hx.parent, decide_true, if_true, Option.pure_def]

/-- What a round does below a red parent. -/
theorem insertRound_eq (h : At s t (.ofSide d₁ .red px b :: .ofSide d cg g u :: p)) :
    s.insertRound (ptr t) px =
      if u.rootColor = .red then
        (s.insertCase1 px g (ptr u)).map fun r => (r.1, some r.2)
      else
        (s.insertCase2 d (ptr t) px).bind fun r =>
          (r.1.insertCase3 d r.2.1 g r.2.2).map fun s' => (s', none) := by
  have h := at_red h
  have hx := h.isNode (i := 0) rfl
  have hne : px ≠ ptr u := h.ne_ptr (i := 0) (j := 4) rfl rfl (by decide)
  simp only [RBHeap.insertRound, if_neg hx.ne_zero, h.read (i := 0) rfl, h.read (i := 1) rfl,
    Option.bind_eq_bind, Option.bind_some, RBNode.isBlack_ofSide _ _ _ hx.parent,
    RBNode.redParent_ofSide, RBNode.side_ofSide _ _ hne, RBNode.child_other_ofSide,
    h.hasRed (i := 4) rfl, Option.pure_def, reduceCtorEq, decide_false, Bool.false_eq_true, if_false,
    decide_eq_true_eq]
  split_ifs
  · cases s.insertCase1 px g (ptr u) <;> rfl
  · cases s.insertCase2 d (ptr t) px with
    | none => rfl
    | some r =>
        simp only [Option.bind_some]
        cases r.1.insertCase3 d r.2.1 g r.2.2 <;> rfl

/-- Case 1: the colours flip, and the loop goes on at the grandparent. -/
theorem insertRound_flip (hu : u.rootColor = .red)
    (h : At s t (.ofSide d₁ .red px b :: .ofSide d cg g u :: p)) :
    ∃ s', s.insertRound (ptr t) px = some (s', some (g, up 0 p)) ∧
      At s' (ofSide d .red (ofSide d₁ .black t px b) g (blacken u)) p := by
  have hunil : u ≠ nil := by
    rintro rfl
    cases hu
  have h₀ := at_red h
  have hg := h₀.isNode (i := 1) rfl
  obtain ⟨s₁, hs₁, h₁⟩ := h₀.setParentColorTree (i := 4) rfl hunil hg.aligned .black
  obtain ⟨s₂, hs₂, h₂⟩ := h₁.setParentColor (i := 0) rfl hg.aligned .black
  obtain ⟨s₃, hs₃, h₃⟩ := h₂.setParentColor (i := 1) rfl hg.parent .red
  refine ⟨s₃, ?_, h₃.fold (ptr_ofSide ..) (le_of_eq ?_) ?_⟩
  · rw [insertRound_eq h, if_pos hu]
    simp only [RBHeap.insertCase1, hs₁, hs₂, h₂.read (i := 1) rfl, RBNode.parent_ofSide _ _ _ hg.parent,
      hs₃, Option.bind_eq_bind, Option.bind_some, Option.pure_def, Option.map_some]
  · simp only [List.set_cons_zero, List.set_cons_succ, feet_cons, feet_nil, foot_cell, foot_tree,
      nodes_ofSide, nodes_paint]
    ac_rfl
  · simp only [stored_ofSide, ptr_ofSide, ptr_paint]
    exact ⟨h₃.isNode (i := 1) rfl, ⟨h₃.isNode (i := 0) rfl, h₃.stored (i := 3) rfl,
      h₃.stored (i := 2) rfl⟩, h₃.stored (i := 4) rfl⟩

/-- Cases 2 and 3: a rotation ends the loop. -/
theorem insertRound_rotate (ht : t.rootColor = .red) (hu : u.rootColor ≠ .red)
    (h : At s t (.ofSide d₁ .red px b :: .ofSide d cg g u :: p)) :
    ∃ s' t', s.insertRound (ptr t) px = some (s', none) ∧
      insertRotate d t (.ofSide d₁ .red px b) cg g u = some t' ∧ At s' t' p := by
  obtain ⟨s₁, s₂, parent, tmp, t', hs₁, hs₂, ht', h'⟩ := insertRotate_at ht (at_red h)
  refine ⟨s₂, t', ?_, ht', h'⟩
  rw [insertRound_eq h, if_neg hu, hs₁, Option.bind_some, hs₂, Option.map_some]

end round

/-! ### The loop -/

section loop

theorem insertLoop_done {s s' : RBHeap w} {node parent : Word w} {fuel : ℕ} (hfuel : 0 < fuel)
    (h : s.insertRound node parent = some (s', none)) :
    RBHeap.insertLoop fuel s node parent = some s' := by
  obtain ⟨fuel, rfl⟩ := Nat.exists_eq_add_of_lt hfuel
  rw [Nat.zero_add, RBHeap.insertLoop, h, Option.bind_some]

variable [NeZero w]

/-- The loop follows the loop on trees, in at most one round for each frame and one more. -/
theorem insertLoop_at : ∀ {s : RBHeap w} {t t' : RBTree (Word w)} {p : Path (Word w)},
    t.rootColor = .red → insertColor t p = some t' → At s t p →
    ∃ s', (∀ fuel, p.length < fuel → RBHeap.insertLoop fuel s (ptr t) (up 0 p) = some s') ∧ At s' t' []
  | s, t, t', [], ht, hins, h => by
      obtain ⟨s', hs', h'⟩ := insertRound_root (by rintro rfl; cases ht) h
      cases hins
      exact ⟨s', fun fuel hfuel => insertLoop_done (by omega) hs', h'⟩
  | s, t, t', [f], ht, hins, h => by
      obtain ⟨d, c, x, b, rfl⟩ := f.exists_ofSide
      simp only [insertColor, Frame.color_ofSide] at hins
      split_ifs at hins with hc
      subst hc
      cases hins
      rw [up_ofSide]
      exact ⟨s, fun fuel hfuel => insertLoop_done (by omega) (insertRound_black h),
        by simpa using at_ofSide.mp h⟩
  | s, t, t', f :: fg :: p, ht, hins, h => by
      obtain ⟨d₁, c, px, b, rfl⟩ := f.exists_ofSide
      obtain ⟨d, cg, g, u, rfl⟩ := fg.exists_ofSide
      rw [insertColor_ofSide] at hins
      rw [up_ofSide]
      split_ifs at hins with hc hu
      · subst hc
        cases hins
        exact ⟨s, fun fuel hfuel => insertLoop_done (by omega) (insertRound_black h), at_plug.mp h⟩
      · have hc : c = .red := by cases c <;> simp_all
        subst hc
        obtain ⟨s₁, hs₁, h₁⟩ := insertRound_flip hu h
        obtain ⟨s', hs', h'⟩ := insertLoop_at (rootColor_ofSide ..) hins h₁
        refine ⟨s', fun fuel hfuel => ?_, h'⟩
        obtain ⟨fuel, rfl⟩ : ∃ n, fuel = n + 1 := ⟨fuel - 1, by omega⟩
        rw [RBHeap.insertLoop, hs₁, Option.bind_some, ← hs' fuel (by simp at hfuel; omega), ptr_ofSide]
      · have hc : c = .red := by cases c <;> simp_all
        subst hc
        obtain ⟨s₁, t₁, hs₁, ht₁, h₁⟩ := insertRound_rotate ht hu h
        rw [ht₁, Option.map_some, Option.some.injEq] at hins
        subst hins
        exact ⟨s₁, fun fuel hfuel => insertLoop_done (by omega) hs₁, at_plug.mp h₁⟩

end loop

/-! ### Linking -/

/-- The child slot at the end of a path. -/
def slot : Path (Word w) → RBHeap.Slot w
  | [] => .root
  | .left _ x _ :: _ => .child x .left
  | .right _ _ x :: _ => .child x .right

theorem slot_ofSide (d : Side) (c : Color) (x : Word w) (b : RBTree (Word w)) (p : Path (Word w)) :
    slot (.ofSide d c x b :: p) = .child x d := by cases d <;> rfl

theorem parent_slot (p : Path (Word w)) : (slot p).parent = up 0 p := by
  cases p with
  | nil => rfl
  | cons f p => cases f <;> rfl

section link
variable {s : RBHeap w} {x : Word w} {p : Path (Word w)}

/-- A new node beside a tree. -/
theorem Holds.alloc (h : At s nil p) (hx : x ≠ 0) (ha : Aligned x) (hnot : x ∉ pathNodes p) :
    Holds ⟨s.root, Function.update s.mem x (some ⟨up 0 p, 0, 0⟩)⟩ 0 p
      [cell .left x (up 0 p) .red 0 0] := by
  refine ⟨h.root, ?_, ?_⟩
  · rw [List.forall_mem_cons, List.forall_mem_singleton]
    refine ⟨PathStored.congr ?_ (h.owns.get (i := 0) rfl), hx, ha, h.aligned_up, ?_⟩
    · intro k hk
      exact Function.update_of_ne (ne_of_mem_of_not_mem hk hnot) _ _
    · rw [pack_red]
      exact Function.update_self ..
  · have hnd := h.owns.nodup_foot (i := 0) rfl
    rw [feet_cons, feet_cons, feet_nil, add_zero, foot_path, foot_cell, add_comm,
      Multiset.singleton_add, Multiset.nodup_cons]
    exact ⟨hnot, hnd⟩

theorem modify_of_mem {n : RBNode w} (hx : x ≠ 0) (hmem : s.mem x = some n)
    (f : RBNode w → RBNode w) :
    s.modify x f = some ⟨s.root, Function.update s.mem x (some (f n))⟩ := by
  rw [RBHeap.modify, RBHeap.read, if_neg hx, hmem, Option.map_some]

theorem modify_update (hx : x ≠ 0) (root : Word w) (m : Word w → Option (RBNode w)) (n : RBNode w)
    (f : RBNode w → RBNode w) :
    RBHeap.modify ⟨root, Function.update m x (some n)⟩ x f =
      some ⟨root, Function.update m x (some (f n))⟩ := by
  rw [modify_of_mem hx (Function.update_self ..)]
  simp only [Function.update_idem]

/-- `hev_rbtree_node_link` of a node that is not in the tree. -/
theorem nodeLink_at {n : RBNode w} (h : At s nil p) (hx : x ≠ 0) (ha : Aligned x)
    (hnot : x ∉ pathNodes p) (hmem : s.mem x = some n) :
    ∃ s', s.nodeLink x (slot p) = some s' ∧ At s' (.node .red .nil x .nil) p := by
  have h₁ := Holds.alloc h hx ha hnot
  have hfold : ∀ {s' : RBHeap w}, Holds s' x p [cell .left x (up 0 p) .red 0 0] →
      At s' (.node .red .nil x .nil) p := by
    intro s' h'
    exact h'.fold rfl le_rfl ⟨h'.isNode (i := 0) rfl, trivial, trivial⟩
  simp only [RBHeap.nodeLink, RBHeap.setChild, modify_of_mem hx hmem, modify_update hx,
    Option.bind_eq_bind, Option.bind_some, RBNode.setChild, parent_slot]
  cases p with
  | nil => exact ⟨_, rfl, hfold ⟨rfl, h₁.owns⟩⟩
  | cons f p =>
      obtain ⟨d, c, y, b, rfl⟩ := f.exists_ofSide
      obtain ⟨s', hs', h'⟩ := h₁.setFocus x
      rw [slot_ofSide]
      exact ⟨s', hs', hfold h'⟩

variable [NeZero w]

/-- `hev_rbtree_node_link` and `hev_rbtree_insert_color`. -/
theorem insert_at {n : RBNode w} {t' : RBTree (Word w)} (hlink : link x p = some t')
    (h : At s nil p) (hx : x ≠ 0) (ha : Aligned x) (hnot : x ∉ pathNodes p)
    (hmem : s.mem x = some n) :
    ∃ s₁ s', s.nodeLink x (slot p) = some s₁ ∧
      (∀ fuel, p.length < fuel → s₁.insertColor fuel x = some s') ∧ At s' t' [] := by
  obtain ⟨s₁, hs₁, h₁⟩ := nodeLink_at h hx ha hnot hmem
  obtain ⟨s', hs', h'⟩ := insertLoop_at rfl hlink h₁
  refine ⟨s₁, s', hs₁, fun fuel hfuel => ?_, h'⟩
  have hread := (Holds.tree_iff (d := .left) (a := nil) (b := nil)).mp h₁ |>.read (i := 0) rfl
  rw [RBHeap.insertColor, hread, Option.bind_eq_bind, Option.bind_some, RBNode.redParent_ofSide]
  exact hs' fuel hfuel

end link

end RBTree

end HevTunnel
