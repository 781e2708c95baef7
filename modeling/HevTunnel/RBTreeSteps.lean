import HevTunnel.RBTreeShape

/-! # The statements of the red-black tree on pieces of memory

A memory is cut into pieces: a `cell` is one node, `tree` a subtree and `path` the frames above a
position.  `Holds s q p ps` is a state with the pointer `q` at a position below the path `p`, and with
the other pieces `ps`.  For each statement of `hev-rbtree.c` there is one lemma: the statement
succeeds, and it changes the pieces in one place.

`Holds.up` and `Holds.open` cut a frame off a path and the root off a subtree. -/

namespace HevTunnel

namespace RBTree

variable {w : ℕ}

/-- One node. -/
def cell (d : Side) (x par : Word w) (c : Color) (a b : Word w) : Piece (Word w) (RBNode w) where
  foot := {x}
  holds m := IsNode m d x par c a b
  congr hm h := h.congr (hm x (Multiset.mem_singleton_self x))

theorem cell_other (d : Side) (x par : Word w) (c : Color) (a b : Word w) :
    cell d.other x par c a b = cell d x par c b a := by
  have hholds (m : Word w → Option (RBNode w)) :
      IsNode m d.other x par c a b = IsNode m d x par c b a :=
    propext ⟨fun h => by simpa using h.other, fun h => h.other⟩
  simp only [cell, hholds]

/-- A subtree. -/
def tree (par : Word w) (t : RBTree (Word w)) : Piece (Word w) (RBNode w) where
  foot := nodes t
  holds m := Stored m par t
  congr hm h := h.congr hm

/-- The frames above the pointer `q`, which end below `base`. -/
def path (base q : Word w) (p : Path (Word w)) : Piece (Word w) (RBNode w) where
  foot := pathNodes p
  holds m := PathStored m base q p
  congr hm h := h.congr hm

@[simp] theorem foot_cell (d : Side) (x par : Word w) (c : Color) (a b : Word w) :
    (cell d x par c a b).foot = {x} := rfl

@[simp] theorem foot_tree (par : Word w) (t : RBTree (Word w)) : (tree par t).foot = nodes t := rfl

@[simp] theorem foot_path (base q : Word w) (p : Path (Word w)) : (path base q p).foot = pathNodes p := rfl

section holds
variable {m : Word w → Option (RBNode w)}

@[simp] theorem holds_cell (d : Side) (x par : Word w) (c : Color) (a b : Word w) :
    (cell d x par c a b).holds m ↔ IsNode m d x par c a b := Iff.rfl

@[simp] theorem holds_tree (par : Word w) (t : RBTree (Word w)) :
    (tree par t).holds m ↔ Stored m par t := Iff.rfl

@[simp] theorem holds_path (base q : Word w) (p : Path (Word w)) :
    (path base q p).holds m ↔ PathStored m base q p := Iff.rfl

end holds

/-- The pointer `q` at the position below `p`, and the pieces `ps` besides. -/
structure Holds (s : RBHeap w) (q : Word w) (p : Path (Word w))
    (ps : List (Piece (Word w) (RBNode w))) : Prop where
  root : s.root = rootPtr q p
  owns : Owns s.mem (path 0 q p :: ps)

namespace Holds

variable {s : RBHeap w} {q : Word w} {p : Path (Word w)} {ps qs : List (Piece (Word w) (RBNode w))}
  {i j : ℕ} {d : Side} {x par : Word w} {c : Color} {a b : Word w} {t : RBTree (Word w)}

theorem get (h : Holds s q p ps) {r : Piece (Word w) (RBNode w)} (hi : ps[i]? = some r) :
    r.holds s.mem := h.owns.get (i := i + 1) hi

theorem isNode (h : Holds s q p ps) (hi : ps[i]? = some (cell d x par c a b)) :
    IsNode s.mem d x par c a b := h.get hi

theorem stored (h : Holds s q p ps) (hi : ps[i]? = some (tree par t)) : Stored s.mem par t := h.get hi

theorem aligned_up (h : Holds s q p ps) : Aligned (up 0 p) :=
  PathStored.aligned_up (h.owns.get (i := 0) rfl) aligned_zero

theorem up_ne_zero (h : Holds s q p ps) (hp : p ≠ []) : up 0 p ≠ 0 := by
  cases p with
  | nil => exact absurd rfl hp
  | cons f p =>
      obtain ⟨d, c, x, b, rfl⟩ := f.exists_ofSide
      rw [up_ofSide]
      exact ((pathStored_ofSide ..).mp (h.owns.get (i := 0) rfl)).1.ne_zero

theorem regroup (h : Holds s q p ps) (hfeet : feet qs ≤ feet ps) (hqs : ∀ r ∈ qs, r.holds s.mem) :
    Holds s q p qs := by
  refine ⟨h.root, h.owns.regroup (add_le_add_right hfeet _) ?_⟩
  rw [List.forall_mem_cons]
  exact ⟨h.owns.get (i := 0) rfl, hqs⟩

/-- The same pieces in another order. -/
theorem rearrange (h : Holds s q p ps) (hsub : qs ⊆ ps) (hfeet : feet qs = feet ps) :
    Holds s q p qs :=
  h.regroup hfeet.le fun r hr => h.owns.holds r (List.mem_cons_of_mem _ (hsub hr))

/-! ### Cutting -/

/-- The innermost frame of the path as pieces of its own. -/
theorem frame_iff {b : RBTree (Word w)} : Holds s q (.ofSide d c x b :: p) ps ↔
    Holds s x p (cell d x (up 0 p) c q (ptr b) :: tree x b :: ps) := by
  have hfeet : feet (path 0 q (.ofSide d c x b :: p) :: ps) =
      feet (path 0 x p :: cell d x (up 0 p) c q (ptr b) :: tree x b :: ps) := by
    simp only [feet_cons, foot_path, foot_cell, foot_tree, pathNodes_ofSide]
    ac_rfl
  constructor
  · rintro ⟨hroot, howns⟩
    obtain ⟨hp, hps⟩ := List.forall_mem_cons.mp howns.holds
    obtain ⟨hx, hb, hp⟩ := (pathStored_ofSide ..).mp hp
    refine ⟨hroot.trans (rootPtr_ofSide ..), howns.regroup hfeet.ge ?_⟩
    simp only [List.forall_mem_cons]
    exact ⟨hp, hx, hb, hps⟩
  · rintro ⟨hroot, howns⟩
    have hall := howns.holds
    simp only [List.forall_mem_cons] at hall
    obtain ⟨hp, hx, hb, hps⟩ := hall
    refine ⟨hroot.trans (rootPtr_ofSide ..).symm, howns.regroup hfeet.le ?_⟩
    rw [List.forall_mem_cons]
    exact ⟨(pathStored_ofSide ..).mpr ⟨hx, hb, hp⟩, hps⟩

/-- A piece cut into others that hold together exactly if it does. -/
theorem cut_iff {r : Piece (Word w) (RBNode w)} (rs : List (Piece (Word w) (RBNode w)))
    (hfeet : r.foot = feet rs) (hholds : ∀ m, r.holds m ↔ ∀ r' ∈ rs, r'.holds m) :
    Holds s q p (r :: ps) ↔ Holds s q p (rs ++ ps) := by
  have hfeet' : feet (r :: ps) = feet (rs ++ ps) := by rw [feet_cons, feet_append, hfeet]
  constructor
  · intro h
    refine h.regroup hfeet'.ge (List.forall_mem_append.mpr ⟨(hholds _).mp (h.get (i := 0) rfl), ?_⟩)
    exact fun r' hr' => h.owns.holds r' (by simp [hr'])
  · intro h
    refine h.regroup hfeet'.le (List.forall_mem_cons.mpr ⟨(hholds _).mpr ?_, ?_⟩)
    · exact fun r' hr' => h.owns.holds r' (by simp [hr'])
    · exact fun r' hr' => h.owns.holds r' (by simp [hr'])

/-- The root of a subtree as a piece of its own. -/
theorem tree_iff {a b : RBTree (Word w)} : Holds s q p (tree par (ofSide d c a x b) :: ps) ↔
    Holds s q p (cell d x par c (ptr a) (ptr b) :: tree x a :: tree x b :: ps) :=
  cut_iff [cell d x par c (ptr a) (ptr b), tree x a, tree x b] (by simp) fun m => by simp

/-! ### Reading -/

theorem read (h : Holds s q p ps) (hi : ps[i]? = some (cell d x par c a b)) :
    s.read x = some (RBNode.ofSide d (pack par c) a b) := by
  rw [RBHeap.read, if_neg (h.isNode hi).ne_zero]
  exact (h.isNode hi).read

theorem ptr_eq_zero (h : Holds s q p ps) (hi : ps[i]? = some (tree par t)) : ptr t = 0 ↔ t = nil := by
  cases t with
  | nil => simp
  | node c l x r => simpa [ptr] using (h.stored hi).1.ne_zero

theorem ptr_mem_nodes (ht : t ≠ nil) : ptr t ∈ nodes t := by
  cases t with
  | nil => exact absurd rfl ht
  | node c l x r => simp [nodes, ptr]

theorem ptr_ne_of_not_mem (hx : x ≠ 0) (hnot : x ∉ nodes t) : x ≠ ptr t := by
  rintro rfl
  refine hnot (ptr_mem_nodes ?_)
  rintro rfl
  exact hx rfl

theorem ne_ptr (h : Holds s q p ps) (hi : ps[i]? = some (cell d x par c a b))
    (hj : ps[j]? = some (tree par' t)) (hij : i ≠ j) : x ≠ ptr t :=
  ptr_ne_of_not_mem (h.isNode hi).ne_zero
    (h.owns.not_mem_foot (i := i + 1) (j := j + 1) hi hj (by omega) (Multiset.mem_singleton_self x))

theorem ptr_ne (h : Holds s q p ps) {par' : Word w} {t' : RBTree (Word w)}
    (hi : ps[i]? = some (tree par t)) (hj : ps[j]? = some (tree par' t')) (hij : i ≠ j)
    (ht : t ≠ nil) : ptr t ≠ ptr t' :=
  ptr_ne_of_not_mem (mt (h.ptr_eq_zero hi).mp ht)
    (h.owns.not_mem_foot (i := i + 1) (j := j + 1) hi hj (by omega) (ptr_mem_nodes ht))

theorem not_mem_path (h : Holds s q p ps) (hi : ps[i]? = some (cell d x par c a b)) :
    x ∉ pathNodes p :=
  h.owns.not_mem_foot (i := i + 1) (j := 0) hi rfl (by omega) (Multiset.mem_singleton_self x)

section color
variable [NeZero w]

theorem hasRed (h : Holds s q p ps) (hi : ps[i]? = some (tree par t)) :
    s.hasRed (ptr t) = some (decide (t.rootColor = .red)) := by
  cases t with
  | nil => rfl
  | node c l x r =>
      have hx := (h.stored hi).1
      rw [RBHeap.hasRed, ptr, if_neg hx.ne_zero, RBHeap.read, if_neg hx.ne_zero, hx.read,
        Option.map_some, RBNode.isRed_ofSide _ _ _ hx.parent, rootColor]

theorem hasNoRed (h : Holds s q p ps) (hi : ps[i]? = some (tree par t)) :
    s.hasNoRed (ptr t) = some (decide (t.rootColor = .black)) := by
  cases t with
  | nil => rfl
  | node c l x r =>
      have hx := (h.stored hi).1
      rw [RBHeap.hasNoRed, ptr, if_neg hx.ne_zero, RBHeap.read, if_neg hx.ne_zero, hx.read,
        Option.map_some, RBNode.isBlack_ofSide _ _ _ hx.parent, rootColor]

end color

/-! ### Writing -/

/-- A write to a cell. -/
theorem modify (h : Holds s q p ps) (hi : ps[i]? = some (cell d x par c a b))
    {f : RBNode w → RBNode w} {par' : Word w} {c' : Color} {a' b' : Word w}
    (hf : f (RBNode.ofSide d (pack par c) a b) = RBNode.ofSide d (pack par' c') a' b')
    (hpar' : Aligned par') :
    ∃ s', s.modify x f = some s' ∧ Holds s' q p (ps.set i (cell d x par' c' a' b')) := by
  refine ⟨⟨s.root, Function.update s.mem x (some (RBNode.ofSide d (pack par' c') a' b'))⟩, ?_,
    h.root, ?_⟩
  · rw [RBHeap.modify, h.read hi, Option.map_some, hf]
  refine h.owns.replace (i := i + 1) hi rfl ?_ ?_
  · exact ⟨(h.isNode hi).ne_zero, (h.isNode hi).aligned, hpar', Function.update_self ..⟩
  · intro k hk
    exact Function.update_of_ne (by simpa using hk) _ _

theorem setChild (h : Holds s q p ps) (hi : ps[i]? = some (cell d x par c a b)) (a' : Word w) :
    ∃ s', s.setChild d x a' = some s' ∧ Holds s' q p (ps.set i (cell d x par c a' b)) :=
  h.modify hi (RBNode.setChild_ofSide ..) (h.isNode hi).parent

theorem setOther (h : Holds s q p ps) (hi : ps[i]? = some (cell d x par c a b)) (b' : Word w) :
    ∃ s', s.setChild d.other x b' = some s' ∧ Holds s' q p (ps.set i (cell d x par c a b')) :=
  h.modify hi (RBNode.setChild_other_ofSide ..) (h.isNode hi).parent

theorem setParentColor (h : Holds s q p ps) (hi : ps[i]? = some (cell d x par c a b))
    {par' : Word w} (hpar' : Aligned par') (c' : Color) :
    ∃ s', s.setParentColor x par' c' = some s' ∧
      Holds s' q p (ps.set i (cell d x par' c' a b)) :=
  h.modify hi (RBNode.setParentColor_ofSide ..) hpar'

/-- A write to the parent word of the root of a subtree. -/
theorem modifyTree (h : Holds s q p ps) (hi : ps[i]? = some (tree par t)) (ht : t ≠ nil)
    {f : RBNode w → RBNode w} {par' : Word w} {c' : Color}
    (hf : Aligned par → ∀ a b, f (RBNode.ofSide .left (pack par t.rootColor) a b) =
      RBNode.ofSide .left (pack par' c') a b) (hpar' : Aligned par') :
    ∃ s', s.modify (ptr t) f = some s' ∧ Holds s' q p (ps.set i (tree par' (paint c' t))) := by
  cases t with
  | nil => exact absurd rfl ht
  | node c l x r =>
      obtain ⟨hx, hl, hr⟩ := h.stored hi
      have hnd : (nodes (ofSide .left c l x r)).Nodup := h.owns.nodup_foot (i := i + 1) hi
      rw [nodes_ofSide, Multiset.singleton_add, Multiset.nodup_cons, Multiset.mem_add] at hnd
      have hframe : ∀ n, ∀ k ≠ x, Function.update s.mem x n k = s.mem k :=
        fun n k hk => Function.update_of_ne hk _ _
      refine ⟨⟨s.root, Function.update s.mem x
        (some (RBNode.ofSide .left (pack par' c') (ptr l) (ptr r)))⟩, ?_, h.root, ?_⟩
      · rw [ptr, RBHeap.modify, RBHeap.read, if_neg hx.ne_zero, hx.read, Option.map_some]
        rw [← hf hx.parent]
        rfl
      refine h.owns.replace (i := i + 1) hi (nodes_paint ..) ?_ ?_
      · refine ⟨⟨hx.ne_zero, hx.aligned, hpar', Function.update_self ..⟩, hl.congr ?_, hr.congr ?_⟩
        · exact fun k hk => hframe _ k (ne_of_mem_of_not_mem hk fun hx => hnd.1 (.inl hx))
        · exact fun k hk => hframe _ k (ne_of_mem_of_not_mem hk fun hx => hnd.1 (.inr hx))
      · intro k hk
        refine hframe _ k (fun hkx => hk ?_)
        subst hkx
        simp [nodes]

theorem setParentColorTree (h : Holds s q p ps) (hi : ps[i]? = some (tree par t)) (ht : t ≠ nil)
    {par' : Word w} (hpar' : Aligned par') (c' : Color) :
    ∃ s', s.setParentColor (ptr t) par' c' = some s' ∧
      Holds s' q p (ps.set i (tree par' (paint c' t))) :=
  h.modifyTree hi ht (fun _ _ _ => RBNode.setParentColor_ofSide ..) hpar'

theorem setParentTree (h : Holds s q p ps) (hi : ps[i]? = some (tree par t)) (ht : t ≠ nil)
    {par' : Word w} (hpar' : Aligned par') :
    ∃ s', s.modify (ptr t) (RBNode.setParent par') = some s' ∧
      Holds s' q p (ps.set i (tree par' t)) := by
  have hpaint := h.modifyTree hi ht (fun hpar _ _ => RBNode.setParent_ofSide _ _ _ hpar _ par') hpar'
  rwa [paint_rootColor] at hpaint

/-- `if (tmp) hev_rbtree_node_set_parent_color (tmp, parent, HEV_RBTREE_BLACK)`. -/
theorem adopt (h : Holds s q p ps) (hi : ps[i]? = some (tree par t)) {par' : Word w}
    (hpar' : Aligned par') :
    ∃ s', s.adopt (ptr t) par' = some s' ∧ Holds s' q p (ps.set i (tree par' (blacken t))) := by
  by_cases ht : t = nil
  · subst ht
    exact ⟨s, by simp [RBHeap.adopt], h.root,
      h.owns.replace (i := i + 1) hi rfl trivial fun _ _ => rfl⟩
  · rw [RBHeap.adopt, if_pos (mt (h.ptr_eq_zero hi).mp ht)]
    exact h.setParentColorTree hi ht hpar' .black

/-- `if (tmp) hev_rbtree_node_set_parent (tmp, parent)`. -/
theorem reparent (h : Holds s q p ps) (hi : ps[i]? = some (tree par t)) {par' : Word w}
    (hpar' : Aligned par') :
    ∃ s', s.reparent (ptr t) par' = some s' ∧ Holds s' q p (ps.set i (tree par' t)) := by
  by_cases ht : t = nil
  · subst ht
    exact ⟨s, by simp [RBHeap.reparent], h.root,
      h.owns.replace (i := i + 1) hi rfl trivial fun _ _ => rfl⟩
  · rw [RBHeap.reparent, if_pos (mt (h.ptr_eq_zero hi).mp ht)]
    exact h.setParentTree hi ht hpar'

/-- A write to the child slot of the position. -/
theorem setFocus {b : RBTree (Word w)} (h : Holds s q (.ofSide d c x b :: p) ps) (new : Word w) :
    ∃ s', s.setChild d x new = some s' ∧ Holds s' new (.ofSide d c x b :: p) ps := by
  obtain ⟨s', hs', h'⟩ := (frame_iff.mp h).setChild (i := 0) rfl new
  exact ⟨s', hs', frame_iff.mpr h'⟩

/-- `hev_rbtree_change_child` at the position. -/
theorem changeChild (h : Holds s q p ps) (hq : q ≠ 0) (hnot : q ∉ pathNodes p) (new : Word w) :
    ∃ s', s.changeChild q new (up 0 p) = some s' ∧ Holds s' new p ps := by
  cases p with
  | nil =>
      refine ⟨⟨new, s.mem⟩, by simp [RBHeap.changeChild], rfl, ?_⟩
      exact h.owns.replace (i := 0) rfl rfl trivial fun _ _ => rfl
  | cons f p =>
      obtain ⟨d, c, x, b, rfl⟩ := f.exists_ofSide
      obtain ⟨s', hs', h'⟩ := h.setFocus new
      refine ⟨s', ?_, h'⟩
      rw [frame_iff] at h
      rw [pathNodes_ofSide, Multiset.mem_add, Multiset.mem_add] at hnot
      have hb : q ≠ ptr b := ptr_ne_of_not_mem hq fun hmem => hnot (.inr (.inl hmem))
      rw [up_ofSide, RBHeap.changeChild, if_pos (h.isNode (i := 0) rfl).ne_zero,
        h.read (i := 0) rfl, Option.bind_eq_bind, Option.bind_some, ← hs']
      cases d with
      | left => exact if_pos rfl
      | right => exact if_neg hb.symm

/-- `hev_rbtree_rotate_set_parents` of the node at the position. -/
theorem rotateSetParents {y par' : Word w} {c' : Color} {a' b' : Word w} (h : Holds s x p ps)
    (hi : ps[i]? = some (cell d x (up 0 p) c a b)) (hj : ps[j]? = some (cell d y par' c' a' b'))
    (hij : i ≠ j) (color : Color) :
    ∃ s', s.rotateSetParents x y color = some s' ∧
      Holds s' y p ((ps.set j (cell d y (up 0 p) c a' b')).set i (cell d x y color a b)) := by
  have hx := h.isNode hi
  have hy := h.isNode hj
  obtain ⟨s₁, hs₁, h₁⟩ := h.modify hj (f := fun m => { m with parentColor := pack (up 0 p) c })
    (RBNode.setWord_ofSide ..) hx.parent
  have hi₁ : (ps.set j (cell d y (up 0 p) c a' b'))[i]? = some (cell d x (up 0 p) c a b) := by
    rw [List.getElem?_set_ne hij.symm, hi]
  obtain ⟨s₂, hs₂, h₂⟩ := h₁.setParentColor hi₁ hy.aligned color
  obtain ⟨s₃, hs₃, h₃⟩ := h₂.changeChild hx.ne_zero (h.not_mem_path hi) y
  refine ⟨s₃, ?_, h₃⟩
  simp only [RBHeap.rotateSetParents, h.read hi, RBNode.parentColor_ofSide,
    RBNode.parent_ofSide _ _ _ hx.parent, Option.bind_eq_bind, Option.bind_some, hs₁, hs₂, hs₃]

end Holds

/-! ### Whole trees -/

/-- The tree `t` below the path `p`, and nothing else. -/
def At (s : RBHeap w) (t : RBTree (Word w)) (p : Path (Word w)) : Prop :=
  Holds s (ptr t) p [tree (up 0 p) t]

/-- The pieces of one tree below the path. -/
theorem Holds.fold {s : RBHeap w} {q : Word w} {p : Path (Word w)}
    {ps : List (Piece (Word w) (RBNode w))} {t : RBTree (Word w)} (h : Holds s q p ps)
    (hq : ptr t = q) (hfeet : nodes t ≤ feet ps) (ht : Stored s.mem (up 0 p) t) : At s t p := by
  subst hq
  refine h.regroup ?_ (List.forall_mem_singleton.mpr ht)
  rw [feet_cons, feet_nil, foot_tree, add_zero]
  exact hfeet

/-- A tree below a frame is a part of the tree of the frame. -/
theorem at_ofSide {s : RBHeap w} {t : RBTree (Word w)} {d : Side} {c : Color} {x : Word w}
    {b : RBTree (Word w)} {p : Path (Word w)} :
    At s t (.ofSide d c x b :: p) ↔ At s (ofSide d c t x b) p := by
  rw [At, At, up_ofSide, ptr_ofSide, Holds.frame_iff, Holds.tree_iff]
  constructor <;> intro h <;>
    exact h.rearrange (by simp) (by simp only [feet_cons]; ac_rfl)

theorem at_plug {s : RBHeap w} {t : RBTree (Word w)} {p : Path (Word w)} :
    At s t p ↔ At s (plug t p) [] := by
  induction p generalizing t with
  | nil => exact Iff.rfl
  | cons f p ih =>
      obtain ⟨d, c, x, b, rfl⟩ := f.exists_ofSide
      rw [at_ofSide, ih, plug_ofSide]

end RBTree

end HevTunnel
