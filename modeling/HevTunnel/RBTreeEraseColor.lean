import HevTunnel.RBTreeSteps

/-! # The repair after an erasure in memory

`_hev_rbtree_erase_color` follows the loop on trees: if `eraseColor t p` has a result, then the loop
on a memory in which the deficient subtree `t` lies below `p` ends, and the result lies in the memory
after it (`eraseLoop_at`). -/

namespace HevTunnel

namespace RBTree

variable {w : ℕ}

/-! ### The loop on trees by sides -/

/-- Cases 2 to 4 on trees for a deficient child at the side `d`. -/
def fix {α : Type} : Side → RBTree α → Color → α → RBTree α → Option (Fix α)
  | .left => fixLeft
  | .right => fixRight

section trees
variable {α : Type} (d : Side) (cp cs : Color) (t sa sb ya yb : RBTree α) (px sx y : α)

theorem fix_nil : fix d t cp px nil = none := by cases d <;> rfl

theorem fix_outer (hsb : sb.rootColor = .red) : fix d t cp px (ofSide d cs sa sx sb) =
    some (.done (ofSide d cp (ofSide d .black t px sa) sx (blacken sb))) := by
  cases d <;> simp only [fix, ofSide, fixLeft, fixRight, hsb]

theorem fix_inner (hsb : sb.rootColor ≠ .red) :
    fix d t cp px (ofSide d cs (ofSide d .red ya y yb) sx sb) =
      some (.done (ofSide d cp (ofSide d .black t px ya) y (ofSide d .black (blacken yb) sx sb))) := by
  have hblack : sb.rootColor = .black := by cases h : sb.rootColor <;> simp_all
  cases d <;> simp only [fix, ofSide, fixLeft, fixRight, hblack]

/-- The subtree after the colour flip of the sibling. -/
theorem fix_flip (hsb : sb.rootColor ≠ .red) (hsa : sa.rootColor ≠ .red) :
    fix d t cp px (ofSide d cs sa sx sb) =
      some (if cp = .red then .done (ofSide d .black t px (ofSide d .red sa sx sb))
        else .up (ofSide d .black t px (ofSide d .red sa sx sb))) := by
  have hblack : sb.rootColor = .black := by cases h : sb.rootColor <;> simp_all
  cases d <;> cases cp <;> cases sa <;>
    simp_all [fix, ofSide, fixLeft, fixRight, rootColor]

/-- Case 1 runs into the other cases below a red parent, and they end the loop. -/
theorem eraseRound_red {x : Fix α}
    (h : eraseRound t (.ofSide d cp px (ofSide d .red sa sx sb)) = some x) :
    ∃ u, fix d t .red px (blacken sa) = some (.done u) ∧ x = .done (ofSide d cp u sx sb) := by
  cases d with
  | left =>
      simp only [Frame.ofSide, ofSide, eraseRound] at h
      simp only [fix]
      generalize fixLeft t .red px (blacken sa) = r at h ⊢
      rcases r with _ | u | u <;> simp at h
      exact ⟨u, rfl, h.symm⟩
  | right =>
      simp only [Frame.ofSide, ofSide, eraseRound] at h
      simp only [fix]
      generalize fixRight t .red px (blacken sa) = r at h ⊢
      rcases r with _ | u | u <;> simp at h
      exact ⟨u, rfl, h.symm⟩

theorem rootColor_eq_black {t : RBTree α} (h : t.rootColor ≠ .red) : t.rootColor = .black := by
  cases ht : t.rootColor with
  | red => exact absurd ht h
  | black => rfl

theorem eraseRound_black (s : RBTree α) (hs : s.rootColor ≠ .red) :
    eraseRound t (.ofSide d cp px s) = fix d t cp px s := by
  cases d <;> cases s <;> simp_all [eraseRound, Frame.ofSide, fix, rootColor]

end trees

/-! ### The cases -/

section cases
variable {s : RBHeap w} {p : Path (Word w)} {ps : List (Piece (Word w) (RBNode w))} {d : Side}
  {cp cs : Color} {px sx a : Word w}

/-- Case 4: the sibling takes the place of the parent. -/
theorem eraseCase4_holds {q par par' : Word w} {sa tb : RBTree (Word w)} (htb : tb ≠ nil)
    (h : Holds s px p (cell d px (up 0 p) cp a q :: cell d sx par cs (ptr sa) (ptr tb) ::
      tree sx sa :: tree par' tb :: ps)) :
    ∃ s', s.eraseCase4 d px sx (ptr tb) = some s' ∧
      Holds s' sx p (cell d px sx .black a (ptr sa) :: cell d sx (up 0 p) cp px (ptr tb) ::
        tree px sa :: tree sx (blacken tb) :: ps) := by
  have hpx := h.isNode (i := 0) rfl
  have hsx := h.isNode (i := 1) rfl
  obtain ⟨s₁, hs₁, h₁⟩ := h.setOther (i := 0) rfl (ptr sa)
  obtain ⟨s₂, hs₂, h₂⟩ := h₁.setChild (i := 1) rfl px
  obtain ⟨s₃, hs₃, h₃⟩ := h₂.setParentColorTree (i := 3) rfl htb hsx.aligned .black
  obtain ⟨s₄, hs₄, h₄⟩ := h₃.reparent (i := 2) rfl hpx.aligned
  obtain ⟨s₅, hs₅, h₅⟩ := h₄.rotateSetParents (i := 0) (j := 1) rfl rfl (by decide) .black
  refine ⟨s₅, ?_, h₅⟩
  simp only [RBHeap.eraseCase4, h.read (i := 1) rfl, RBNode.child_ofSide, Option.bind_eq_bind,
    Option.bind_some, hs₁, hs₂, hs₃, hs₄, hs₅]

/-- Case 3: the inner child `y` of the sibling takes its place. -/
theorem eraseCase3_holds {par y : Word w} {b : Word w} {ya yb : RBTree (Word w)}
    (h : Holds s px p (cell d px (up 0 p) cp a sx :: cell d sx par cs y b ::
      cell d y sx .red (ptr ya) (ptr yb) :: tree y yb :: ps)) :
    ∃ s', s.eraseCase3 d px sx y = some s' ∧
      Holds s' px p (cell d px (up 0 p) cp a y :: cell d sx par cs (ptr yb) b ::
        cell d y sx .red (ptr ya) sx :: tree sx (blacken yb) :: ps) := by
  obtain ⟨s₁, hs₁, h₁⟩ := h.setChild (i := 1) rfl (ptr yb)
  obtain ⟨s₂, hs₂, h₂⟩ := h₁.setOther (i := 2) rfl sx
  obtain ⟨s₃, hs₃, h₃⟩ := h₂.setOther (i := 0) rfl y
  obtain ⟨s₄, hs₄, h₄⟩ := h₃.adopt (i := 3) rfl (h.isNode (i := 1) rfl).aligned
  refine ⟨s₄, ?_, h₄⟩
  simp only [RBHeap.eraseCase3, h.read (i := 2) rfl, RBNode.child_other_ofSide, Option.bind_eq_bind,
    Option.bind_some, hs₁, hs₂, hs₃, hs₄]

variable {t sib sa sb : RBTree (Word w)}

/-- The pieces around the parent and the sibling of a deficient subtree. -/
theorem holds_sibling
    (h : Holds s px p [cell d px (up 0 p) cp (ptr t) sx, tree px (ofSide d cs sa sx sb), tree px t]) :
    Holds s px p [cell d px (up 0 p) cp (ptr t) sx, cell d sx px cs (ptr sa) (ptr sb), tree sx sa,
      tree sx sb, tree px t] := by
  have h₀ : Holds s px p [tree px (ofSide d cs sa sx sb), cell d px (up 0 p) cp (ptr t) sx,
      tree px t] := h.rearrange (by simp) (by simp only [feet_cons]; ac_rfl)
  exact (Holds.tree_iff.mp h₀).rearrange (by simp) (by simp only [feet_cons]; ac_rfl)

/-- The same pieces with the sibling first. -/
theorem holds_sibling_first {q : Word w}
    (h : Holds s px p [cell d px (up 0 p) cp (ptr t) q, cell d sx px cs (ptr sa) (ptr sb), tree sx sa,
      tree sx sb, tree px t]) :
    Holds s px p [cell d sx px cs (ptr sa) (ptr sb), tree sx sa, tree sx sb,
      cell d px (up 0 p) cp (ptr t) q, tree px t] :=
  h.rearrange (by simp) (by simp only [feet_cons]; ac_rfl)

variable [NeZero w]

/-- Case 2: the sibling becomes red.  A red parent becomes black and ends the loop, a black one is
short of a black node itself. -/
theorem eraseCase2_holds (hsib : sib ≠ nil)
    (h : Holds s px p [cell d px (up 0 p) cp (ptr t) (ptr sib), tree px sib, tree px t]) :
    ∃ s', s.eraseCase2 px (ptr sib) =
        some (s', if cp = .red ∨ up 0 p = 0 then none else some (px, up 0 p)) ∧
      At s' (ofSide d .black t px (paint .red sib)) p := by
  have hpx := h.isNode (i := 0) rfl
  obtain ⟨s₁, hs₁, h₁⟩ := h.setParentColorTree (i := 1) rfl hsib hpx.aligned .red
  have hfold : ∀ {s' : RBHeap w}, Holds s' px p [cell d px (up 0 p) .black (ptr t) (ptr sib),
      tree px (paint .red sib), tree px t] → At s' (ofSide d .black t px (paint .red sib)) p := by
    intro s' h'
    refine h'.fold (ptr_ofSide ..) (le_of_eq ?_) ?_
    · simp only [feet_cons, feet_nil, foot_cell, foot_tree, nodes_ofSide, nodes_paint]
      ac_rfl
    · rw [stored_ofSide, ptr_paint]
      exact ⟨h'.isNode (i := 0) rfl, h'.stored (i := 2) rfl, h'.stored (i := 1) rfl⟩
  cases cp with
  | red =>
      obtain ⟨s₂, hs₂, h₂⟩ := h₁.modify (i := 0) rfl (RBNode.setBlack_ofSide ..) hpx.parent
      refine ⟨s₂, ?_, hfold h₂⟩
      simp only [RBHeap.eraseCase2, hs₁, h₁.read (i := 0) rfl, RBNode.isRed_ofSide _ _ _ hpx.parent,
        Option.bind_eq_bind, Option.bind_some, decide_true, if_true, true_or, hs₂, Option.pure_def]
  | black =>
      refine ⟨s₁, ?_, hfold h₁⟩
      simp only [RBHeap.eraseCase2, hs₁, h₁.read (i := 0) rfl, RBNode.isRed_ofSide _ _ _ hpx.parent,
        RBNode.parent_ofSide _ _ _ hpx.parent, Option.bind_eq_bind, Option.bind_some, reduceCtorEq,
        decide_false, Bool.false_eq_true, if_false, false_or, Option.pure_def, ne_eq, ite_not]
      split_ifs <;> rfl

/-- Which of the cases 2 to 4 applies. -/
theorem eraseFix_eq {par : Word w} {q₀ q₁ : Word w}
    (h : Holds s px p (cell d sx par cs (ptr sa) (ptr sb) :: tree q₀ sa :: tree q₁ sb :: ps)) :
    s.eraseFix d px sx =
      if sb.rootColor = .black then
        if sa.rootColor = .black then s.eraseCase2 px sx
        else (s.eraseCase3 d px sx (ptr sa)).bind fun s =>
          (s.eraseCase4 d px (ptr sa) sx).bind fun s => some (s, none)
      else (s.eraseCase4 d px sx (ptr sb)).bind fun s => some (s, none) := by
  simp only [RBHeap.eraseFix, h.read (i := 0) rfl, RBNode.child_other_ofSide, RBNode.child_ofSide,
    h.hasNoRed (i := 1) rfl, h.hasNoRed (i := 2) rfl, Option.bind_eq_bind, Option.bind_some,
    Option.pure_def, decide_eq_true_eq]

theorem eraseFix_outer (hsb : sb.rootColor = .red)
    (h : Holds s px p [cell d px (up 0 p) cp (ptr t) sx, tree px (ofSide d cs sa sx sb), tree px t]) :
    ∃ s', s.eraseFix d px sx = some (s', none) ∧
      At s' (ofSide d cp (ofSide d .black t px sa) sx (blacken sb)) p := by
  have hsbnil : sb ≠ nil := by
    rintro rfl
    cases hsb
  have h₀ := holds_sibling h
  obtain ⟨s', hs', h'⟩ := eraseCase4_holds hsbnil h₀
  refine ⟨s', ?_, h'.fold (ptr_ofSide ..) (le_of_eq ?_) ?_⟩
  · rw [eraseFix_eq (holds_sibling_first h₀), if_neg (by simp [hsb]), hs', Option.bind_some]
  · simp only [feet_cons, feet_nil, foot_cell, foot_tree, nodes_ofSide, nodes_paint]
    ac_rfl
  · simp only [stored_ofSide, ptr_ofSide, ptr_paint]
    exact ⟨h'.isNode (i := 1) rfl, ⟨h'.isNode (i := 0) rfl, h'.stored (i := 4) rfl,
      h'.stored (i := 2) rfl⟩, h'.stored (i := 3) rfl⟩

theorem eraseFix_inner {y : Word w} {ya yb : RBTree (Word w)} (hsb : sb.rootColor ≠ .red)
    (h : Holds s px p [cell d px (up 0 p) cp (ptr t) sx,
      tree px (ofSide d cs (ofSide d .red ya y yb) sx sb), tree px t]) :
    ∃ s', s.eraseFix d px sx = some (s', none) ∧
      At s' (ofSide d cp (ofSide d .black t px ya) y (ofSide d .black (blacken yb) sx sb)) p := by
  have h₀ := holds_sibling h
  have h₁ : Holds s px p [tree sx (ofSide d .red ya y yb), cell d px (up 0 p) cp (ptr t) sx,
      cell d sx px cs y (ptr sb), tree sx sb, tree px t] := by
    rw [ptr_ofSide] at h₀
    exact h₀.rearrange (by simp) (by simp only [feet_cons]; ac_rfl)
  have h₂ : Holds s px p [cell d px (up 0 p) cp (ptr t) sx, cell d sx px cs y (ptr sb),
      cell d y sx .red (ptr ya) (ptr yb), tree y yb, tree y ya, tree sx sb, tree px t] :=
    (Holds.tree_iff.mp h₁).rearrange (by simp) (by simp only [feet_cons]; ac_rfl)
  obtain ⟨s₃, hs₃, h₃⟩ := eraseCase3_holds h₂
  -- the old sibling with its new inner child is the outer child of `y`
  have h₄ : Holds s₃ px p [cell d sx px cs (ptr (blacken yb)) (ptr sb), tree sx (blacken yb),
      tree sx sb, cell d px (up 0 p) cp (ptr t) y, cell d y sx .red (ptr ya) sx, tree y ya,
      tree px t] := by
    rw [ptr_paint]
    exact h₃.rearrange (by simp) (by simp only [feet_cons]; ac_rfl)
  have h₅ : Holds s₃ px p [cell d px (up 0 p) cp (ptr t) y,
      cell d y sx .red (ptr ya) (ptr (ofSide d cs (blacken yb) sx sb)), tree y ya,
      tree px (ofSide d cs (blacken yb) sx sb), tree px t] := by
    rw [ptr_ofSide]
    exact (Holds.tree_iff.mpr h₄).rearrange (by simp) (by simp only [feet_cons]; ac_rfl)
  obtain ⟨s', hs', h'⟩ := eraseCase4_holds (ofSide_ne_nil _ _ _ _ _) h₅
  refine ⟨s', ?_, h'.fold (ptr_ofSide ..) (le_of_eq ?_) ?_⟩
  · rw [ptr_ofSide] at hs'
    rw [eraseFix_eq (holds_sibling_first h₀), if_pos (rootColor_eq_black hsb), if_neg (by simp),
      ptr_ofSide, hs₃, Option.bind_some, hs', Option.bind_some]
  · simp only [feet_cons, feet_nil, foot_cell, foot_tree, nodes_ofSide, nodes_paint]
    ac_rfl
  · have hy := h'.isNode (i := 1) rfl
    have hsib := h'.stored (i := 3) rfl
    simp only [blacken, paint_ofSide] at hsib
    simp only [stored_ofSide, ptr_ofSide] at hy hsib ⊢
    exact ⟨hy, ⟨h'.isNode (i := 0) rfl, h'.stored (i := 4) rfl, h'.stored (i := 2) rfl⟩, hsib⟩

theorem eraseFix_flip (hsb : sb.rootColor ≠ .red) (hsa : sa.rootColor ≠ .red)
    (h : Holds s px p [cell d px (up 0 p) cp (ptr t) sx, tree px (ofSide d cs sa sx sb), tree px t]) :
    ∃ s', s.eraseFix d px sx =
        some (s', if cp = .red ∨ up 0 p = 0 then none else some (px, up 0 p)) ∧
      At s' (ofSide d .black t px (ofSide d .red sa sx sb)) p := by
  have h₀ := holds_sibling h
  have h₁ : Holds s px p [cell d px (up 0 p) cp (ptr t) (ptr (ofSide d cs sa sx sb)),
      tree px (ofSide d cs sa sx sb), tree px t] := by
    rw [ptr_ofSide]
    exact h
  obtain ⟨s', hs', h'⟩ := eraseCase2_holds (ofSide_ne_nil _ _ _ _ _) h₁
  rw [ptr_ofSide] at hs'
  rw [paint_ofSide] at h'
  refine ⟨s', ?_, h'⟩
  rw [eraseFix_eq (holds_sibling_first h₀), if_pos (rootColor_eq_black hsb),
    if_pos (rootColor_eq_black hsa), hs']

/-- What a round leaves at the parent: the loop ends, or it goes on at the parent if that is not the
root. -/
def Leaves (s : RBHeap w) (next : Option (Word w × Word w)) (p : Path (Word w)) :
    Fix (Word w) → Prop
  | .done u => next = none ∧ At s u p
  | .up u => next = (if up 0 p = 0 then none else some (ptr u, up 0 p)) ∧ At s u p

/-- Cases 2 to 4 follow the cases on trees. -/
theorem eraseFix_at {x : Fix (Word w)} (hx : fix d t cp px sib = some x)
    (h : Holds s px p [cell d px (up 0 p) cp (ptr t) (ptr sib), tree px sib, tree px t]) :
    ∃ s' next, s.eraseFix d px (ptr sib) = some (s', next) ∧ Leaves s' next p x := by
  cases sib with
  | nil =>
      rw [fix_nil] at hx
      cases hx
  | node cs l sx r =>
      obtain ⟨sa, sb, hnode⟩ := node_exists_ofSide d cs l sx r
      rw [hnode, ptr_ofSide] at h
      rw [hnode] at hx ⊢
      rw [ptr_ofSide]
      by_cases hsb : sb.rootColor = .red
      · rw [fix_outer _ _ _ _ _ _ _ _ hsb, Option.some.injEq] at hx
        subst hx
        obtain ⟨s', hs', h'⟩ := eraseFix_outer hsb h
        exact ⟨s', none, hs', rfl, h'⟩
      by_cases hsa : sa.rootColor = .red
      · obtain ⟨ya, y, yb, rfl⟩ : ∃ ya y yb, sa = ofSide d .red ya y yb := by
          cases sa with
          | nil => cases hsa
          | node c l y r =>
              obtain ⟨ya, yb, hy⟩ := node_exists_ofSide d c l y r
              obtain rfl : c = .red := hsa
              exact ⟨ya, y, yb, hy⟩
        rw [fix_inner _ _ _ _ _ _ _ _ _ _ hsb, Option.some.injEq] at hx
        subst hx
        obtain ⟨s', hs', h'⟩ := eraseFix_inner hsb h
        exact ⟨s', none, hs', rfl, h'⟩
      · rw [fix_flip _ _ _ _ _ _ _ _ hsb hsa, Option.some.injEq] at hx
        subst hx
        obtain ⟨s', hs', h'⟩ := eraseFix_flip hsb hsa h
        refine ⟨s', _, hs', ?_⟩
        cases cp with
        | red => exact ⟨by simp, h'⟩
        | black => exact ⟨by simp, h'⟩

/-- Case 1: a rotation at the parent puts the red sibling above it. -/
theorem eraseCase1_red (hsa : sa ≠ nil)
    (h : Holds s px p [cell d px (up 0 p) cp (ptr t) sx, tree px (ofSide d .red sa sx sb), tree px t]) :
    ∃ s', s.eraseCase1 d px sx = some (s', ptr sa) ∧
      Holds s' px (.ofSide d cp sx sb :: p)
        [cell d px sx .red (ptr t) (ptr sa), tree px (blacken sa), tree px t] := by
  have h₀ := holds_sibling h
  have hpx := h₀.isNode (i := 0) rfl
  have hsx := h₀.isNode (i := 1) rfl
  obtain ⟨s₁, hs₁, h₁⟩ := h₀.setOther (i := 0) rfl (ptr sa)
  obtain ⟨s₂, hs₂, h₂⟩ := h₁.setChild (i := 1) rfl px
  obtain ⟨s₃, hs₃, h₃⟩ := h₂.setParentColorTree (i := 2) rfl hsa hpx.aligned .black
  obtain ⟨s₄, hs₄, h₄⟩ := h₃.rotateSetParents (i := 0) (j := 1) rfl rfl (by decide) .red
  refine ⟨s₄, ?_, Holds.frame_iff.mpr ?_⟩
  · simp only [RBHeap.eraseCase1, h₀.read (i := 1) rfl, RBNode.isRed_ofSide _ _ _ hsx.parent,
      RBNode.child_ofSide, Option.bind_eq_bind, Option.bind_some, decide_true, if_true, hs₁, hs₂, hs₃,
      hs₄, Option.pure_def]
  · refine h₄.rearrange ?_ ?_
    · simp
    · simp only [List.set_cons_zero, List.set_cons_succ, feet_cons]
      ac_rfl

theorem eraseCase1_black (hcs : cs ≠ .red)
    (h : Holds s px p [cell d px (up 0 p) cp (ptr t) sx, tree px (ofSide d cs sa sx sb), tree px t]) :
    s.eraseCase1 d px sx = some (s, sx) := by
  have h₀ := holds_sibling h
  simp only [RBHeap.eraseCase1, h₀.read (i := 1) rfl,
    RBNode.isRed_ofSide _ _ _ (h₀.isNode (i := 1) rfl).parent, Option.bind_eq_bind, Option.bind_some,
    decide_eq_true_eq, if_neg hcs, Option.pure_def]

end cases

/-! ### The loop -/

section loop
variable [NeZero w] {s : RBHeap w} {t : RBTree (Word w)} {p : Path (Word w)}

/-- A round with a red sibling: it is rotated up first, and the round ends below it. -/
theorem eraseRound_at_red {d : Side} {cp : Color} {px sx : Word w} {sa sb : RBTree (Word w)}
    {x : Fix (Word w)} (hx : eraseRound t (.ofSide d cp px (ofSide d .red sa sx sb)) = some x)
    (h : Holds s px p [cell d px (up 0 p) cp (ptr t) sx, tree px (ofSide d .red sa sx sb), tree px t]) :
    ∃ s' next, ((s.eraseCase1 d px sx).bind fun r => r.1.eraseFix d px r.2) = some (s', next) ∧
      Leaves s' next p x := by
  obtain ⟨u, hu, rfl⟩ := eraseRound_red _ _ _ _ _ _ _ hx
  have hsa : sa ≠ nil := by
    rintro rfl
    rw [blacken, paint, fix_nil] at hu
    cases hu
  obtain ⟨s₁, hs₁, h₁⟩ := eraseCase1_red hsa h
  have h₁' : Holds s₁ px (.ofSide d cp sx sb :: p)
      [cell d px (up 0 (.ofSide d cp sx sb :: p)) .red (ptr t) (ptr (blacken sa)),
        tree px (blacken sa), tree px t] := by
    rw [up_ofSide, ptr_paint]
    exact h₁
  obtain ⟨s₂, next, hs₂, hnext, h₂⟩ := eraseFix_at hu h₁'
  rw [ptr_paint] at hs₂
  refine ⟨s₂, next, ?_, hnext, at_ofSide.mp h₂⟩
  rw [hs₁, Option.bind_some]
  exact hs₂

/-- One round follows the round on trees. -/
theorem eraseRound_at {d : Side} {cp : Color} {px : Word w} {sib : RBTree (Word w)}
    {x : Fix (Word w)} (hx : eraseRound t (.ofSide d cp px sib) = some x)
    (h : At s t (.ofSide d cp px sib :: p)) :
    ∃ s' next, s.eraseRound (ptr t) px = some (s', next) ∧ Leaves s' next p x := by
  rw [At, up_ofSide, Holds.frame_iff] at h
  have hsib : sib ≠ nil := by
    rintro rfl
    rw [eraseRound_black _ _ _ _ _ (by simp [rootColor]), fix_nil] at hx
    cases hx
  have hne : ptr t ≠ ptr sib := (h.ptr_ne (i := 1) (j := 2) rfl rfl (by decide) hsib).symm
  have hround : s.eraseRound (ptr t) px =
      (s.eraseCase1 d px (ptr sib)).bind fun r => r.1.eraseFix d px r.2 := by
    simp only [RBHeap.eraseRound, h.read (i := 0) rfl, Option.bind_eq_bind, Option.bind_some,
      RBNode.side_ofSide _ _ hne, RBNode.child_other_ofSide]
  rw [hround]
  cases sib with
  | nil => exact absurd rfl hsib
  | node cs l sx r =>
      obtain ⟨sa, sb, hnode⟩ := node_exists_ofSide d cs l sx r
      rw [hnode] at h hx ⊢
      have h₀ := h
      rw [ptr_ofSide] at h ⊢
      by_cases hcs : cs = .red
      · subst hcs
        exact eraseRound_at_red hx h
      · rw [eraseRound_black _ _ _ _ _ (by rw [rootColor_ofSide]; exact hcs)] at hx
        obtain ⟨s₂, next, hs₂, hleaves⟩ := eraseFix_at hx h₀
        rw [ptr_ofSide] at hs₂
        refine ⟨s₂, next, ?_, hleaves⟩
        rw [eraseCase1_black hcs h, Option.bind_some]
        exact hs₂

/-- The loop follows the loop on trees, in at most one round for each frame. -/
theorem eraseLoop_at {t' : RBTree (Word w)} (hp : p ≠ []) (her : eraseColor t p = some t')
    (h : At s t p) :
    ∃ s', (∀ fuel, p.length ≤ fuel → RBHeap.eraseLoop fuel s (ptr t) (up 0 p) = some s') ∧
      At s' t' [] := by
  induction p generalizing s t with
  | nil => exact absurd rfl hp
  | cons f p ih =>
      obtain ⟨d, cp, px, sib, rfl⟩ := f.exists_ofSide
      cases hx : eraseRound t (.ofSide d cp px sib) with
      | none => simp [eraseColor, hx] at her
      | some x =>
          obtain ⟨s₁, next, hs₁, hleaves⟩ := eraseRound_at hx h
          rw [up_ofSide]
          cases x with
          | done u =>
              obtain ⟨rfl, h₁⟩ := hleaves
              simp only [eraseColor, hx, Option.some.injEq] at her
              subst her
              refine ⟨s₁, fun fuel hfuel => ?_, at_plug.mp h₁⟩
              obtain ⟨fuel, rfl⟩ : ∃ n, fuel = n + 1 := ⟨fuel - 1, by simp at hfuel; omega⟩
              rw [RBHeap.eraseLoop, hs₁, Option.bind_some]
          | up u =>
              obtain ⟨rfl, h₁⟩ := hleaves
              simp only [eraseColor, hx] at her
              by_cases hpnil : p = []
              · subst hpnil
                cases her
                refine ⟨s₁, fun fuel hfuel => ?_, h₁⟩
                obtain ⟨fuel, rfl⟩ : ∃ n, fuel = n + 1 := ⟨fuel - 1, by simp at hfuel; omega⟩
                rw [RBHeap.eraseLoop, hs₁, Option.bind_some]
                simp
              · obtain ⟨s', hs', h'⟩ := ih hpnil her h₁
                refine ⟨s', fun fuel hfuel => ?_, h'⟩
                obtain ⟨fuel, rfl⟩ : ∃ n, fuel = n + 1 := ⟨fuel - 1, by simp at hfuel; omega⟩
                rw [RBHeap.eraseLoop, hs₁, Option.bind_some, if_neg (h₁.up_ne_zero hpnil)]
                exact hs' fuel (by simpa using hfuel)

end loop

end RBTree

end HevTunnel
