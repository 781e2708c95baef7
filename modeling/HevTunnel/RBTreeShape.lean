import HevTunnel.MemoryPieces
import HevTunnel.RBTreeHeap

/-! # Trees in memory

`Stored m par t` says that the tree `t` of node addresses lies in the memory `m` below the parent
`par`: each node has its parent and its colour in one word, and its two child pointers.  `PathStored`
says the same for the frames of a path.

A memory is cut into pieces: a `cell` is one node, `tree` a subtree and `path` the frames above a
position.  `Holds s q p ps` is the state of the tree with the position `q` below the path `p`, and the
other pieces `ps`.  For each statement of the source there is one lemma that says what it does to the
pieces. -/

namespace HevTunnel

variable {w : ℕ}

/-! ### The parent word -/

section masks
variable {p c t u : BitVec w}

/-- Bits that a mask has are taken off again by the mask. -/
theorem or_and_not_mask (hp : p &&& t = 0) (hc : c &&& t = c) : (p ||| c) &&& ~~~t = p := by
  ext i hi
  have hp := congrArg (fun x : BitVec w => x.getLsbD i) hp
  have hc := congrArg (fun x : BitVec w => x.getLsbD i) hc
  simp only [BitVec.getLsbD_and, ← BitVec.getLsbD_eq_getElem, BitVec.getLsbD_or,
    BitVec.getLsbD_not] at hp hc ⊢
  grind

/-- Bits that a smaller mask has are found again by it. -/
theorem or_and_mask (hp : p &&& t = 0) (hc : c &&& u = c) (hu : u &&& t = u) :
    (p ||| c) &&& u = c := by
  ext i hi
  have hp := congrArg (fun x : BitVec w => x.getLsbD i) hp
  have hc := congrArg (fun x : BitVec w => x.getLsbD i) hc
  have hu := congrArg (fun x : BitVec w => x.getLsbD i) hu
  simp only [BitVec.getLsbD_and, ← BitVec.getLsbD_eq_getElem, BitVec.getLsbD_or] at hp hc hu ⊢
  grind

theorem one_and_three : (1 : BitVec w) &&& 3 = 1 := BitVec.ofNat_and.symm

end masks

/-- The parent word of a node with the parent `par` and the colour `c`. -/
def pack (par : Word w) (c : Color) : Word w := par ||| c.word w

theorem pack_red (par : Word w) : pack par .red = par := BitVec.or_zero

/-- The two lowest bits of a pointer, which the parent word does not keep, are 0. -/
def Aligned (p : Word w) : Prop := p &&& 3 = 0

theorem aligned_zero : Aligned (0 : Word w) := BitVec.zero_and

theorem Color.word_and_one (c : Color) : c.word w &&& 1 = c.word w := by
  cases c with
  | red => exact BitVec.zero_and
  | black => exact BitVec.and_self

theorem Color.word_and_three (c : Color) : c.word w &&& 3 = c.word w := by
  cases c with
  | red => exact BitVec.zero_and
  | black => exact one_and_three

theorem pack_and_not_three {par : Word w} (h : Aligned par) (c : Color) :
    pack par c &&& ~~~3 = par := or_and_not_mask h c.word_and_three

theorem pack_and_one {par : Word w} (h : Aligned par) (c : Color) : pack par c &&& 1 = c.word w :=
  or_and_mask h c.word_and_one one_and_three

/-! ### Nodes by sides -/

@[simp] theorem Side.other_other (d : Side) : d.other.other = d := by cases d <;> rfl

theorem Side.eq_or_eq_other (d d' : Side) : d = d' ∨ d = d'.other := by
  cases d <;> cases d' <;> simp [Side.other]

namespace RBNode

/-- The node with the child `a` at the side `d` and the child `b` at the other one. -/
def ofSide : Side → Word w → Word w → Word w → RBNode w
  | .left, pc, a, b => ⟨pc, b, a⟩
  | .right, pc, a, b => ⟨pc, a, b⟩

variable (d : Side) (pc a b : Word w)

theorem ofSide_other : ofSide d.other pc a b = ofSide d pc b a := by cases d <;> rfl

@[simp] theorem child_ofSide : (ofSide d pc a b).child d = a := by cases d <;> rfl

@[simp] theorem child_other_ofSide : (ofSide d pc a b).child d.other = b := by cases d <;> rfl

@[simp] theorem left_ofSide : (ofSide .left pc a b).left = a := rfl

@[simp] theorem right_ofSide : (ofSide .left pc a b).right = b := rfl

/-- How the loops find out at which side a child is. -/
theorem side_ofSide {x y : Word w} (hne : x ≠ y) :
    (if x ≠ (ofSide d pc x y).right then Side.left else Side.right) = d := by
  cases d with
  | left => exact if_pos hne
  | right => exact if_neg fun h => h rfl

@[simp] theorem setChild_ofSide (q : Word w) :
    setChild d q (ofSide d pc a b) = ofSide d pc q b := by cases d <;> rfl

@[simp] theorem setChild_other_ofSide (q : Word w) :
    setChild d.other q (ofSide d pc a b) = ofSide d pc a q := by cases d <;> rfl

@[simp] theorem parentColor_ofSide : (ofSide d pc a b).parentColor = pc := by cases d <;> rfl

@[simp] theorem setWord_ofSide (pc' : Word w) :
    { ofSide d pc a b with parentColor := pc' } = ofSide d pc' a b := by cases d <;> rfl

@[simp] theorem setParentColor_ofSide (par : Word w) (c : Color) :
    setParentColor par c (ofSide d pc a b) = ofSide d (pack par c) a b := by cases d <;> rfl

section pack
variable {par : Word w} (h : Aligned par) (c : Color)
include h

theorem parent_ofSide : (ofSide d (pack par c) a b).parent = par := by
  rw [parent, parentColor_ofSide]
  exact pack_and_not_three h c

theorem color_ofSide : (ofSide d (pack par c) a b).color = c.word w := by
  rw [color, parentColor_ofSide]
  exact pack_and_one h c

theorem setParent_ofSide (par' : Word w) :
    setParent par' (ofSide d (pack par c) a b) = ofSide d (pack par' c) a b := by
  rw [setParent, color_ofSide d a b h, setWord_ofSide, BitVec.or_comm]
  rfl

variable [NeZero w]

theorem isBlack_ofSide : (ofSide d (pack par c) a b).isBlack = decide (c = .black) := by
  rw [isBlack, color_ofSide d a b h]
  cases c <;> simp [Color.word, NeZero.ne w]

theorem isRed_ofSide : (ofSide d (pack par c) a b).isRed = decide (c = .red) := by
  rw [isRed, color_ofSide d a b h]
  cases c <;> simp [Color.word, NeZero.ne w]

end pack

theorem redParent_ofSide (par : Word w) : (ofSide d (pack par .red) a b).redParent = par := by
  rw [redParent, parentColor_ofSide, pack_red]

theorem setBlack_ofSide (par : Word w) :
    setBlack (ofSide d (pack par .red) a b) = ofSide d (pack par .black) a b := by
  rw [setBlack, parentColor_ofSide, setWord_ofSide, pack_red]
  rfl

end RBNode

/-! ### Trees by sides -/

namespace RBTree

section sides
variable {α : Type}

/-- The tree with the subtree `a` at the side `d` and `b` at the other one. -/
def ofSide : Side → Color → RBTree α → α → RBTree α → RBTree α
  | .left, c, a, x, b => .node c a x b
  | .right, c, a, x, b => .node c b x a

/-- The frame of a child at the side `d` whose sibling is `b`. -/
def Frame.ofSide : Side → Color → α → RBTree α → Frame α
  | .left, c, x, b => .left c x b
  | .right, c, x, b => .right c b x

theorem Frame.exists_ofSide (f : Frame α) : ∃ d c x b, f = .ofSide d c x b := by
  cases f with
  | left c x r => exact ⟨.left, c, x, r, rfl⟩
  | right c l x => exact ⟨.right, c, x, l, rfl⟩

theorem node_exists_ofSide (d : Side) (c : Color) (l : RBTree α) (x : α) (r : RBTree α) :
    ∃ a b, node c l x r = ofSide d c a x b := by
  cases d with
  | left => exact ⟨l, r, rfl⟩
  | right => exact ⟨r, l, rfl⟩

theorem ofSide_ne_nil (d : Side) (c : Color) (a : RBTree α) (x : α) (b : RBTree α) :
    ofSide d c a x b ≠ nil := by cases d <;> simp [ofSide]

@[simp] theorem paint_ofSide (d : Side) (c c' : Color) (a : RBTree α) (x : α) (b : RBTree α) :
    paint c' (ofSide d c a x b) = ofSide d c' a x b := by cases d <;> rfl

theorem paint_rootColor (t : RBTree α) : paint t.rootColor t = t := by cases t <;> rfl

@[simp] theorem rootColor_ofSide (d : Side) (c : Color) (a : RBTree α) (x : α) (b : RBTree α) :
    rootColor (ofSide d c a x b) = c := by cases d <;> rfl

theorem plug_ofSide (t : RBTree α) (d : Side) (c : Color) (x : α) (b : RBTree α) (p : Path α) :
    plug t (.ofSide d c x b :: p) = plug (ofSide d c t x b) p := by cases d <;> rfl

@[simp] theorem Frame.close_ofSide (d : Side) (c : Color) (x : α) (b t : RBTree α) :
    (Frame.ofSide d c x b).close t = RBTree.ofSide d c t x b := by cases d <;> rfl

@[simp] theorem Frame.color_ofSide (d : Side) (c : Color) (x : α) (b : RBTree α) :
    (Frame.ofSide d c x b).color = c := by cases d <;> rfl

/-- The nodes of a tree. -/
def nodes (t : RBTree α) : Multiset α := inorder t

@[simp] theorem nodes_nil : nodes (nil : RBTree α) = 0 := rfl

@[simp] theorem nodes_ofSide (d : Side) (c : Color) (a : RBTree α) (x : α) (b : RBTree α) :
    nodes (ofSide d c a x b) = {x} + (nodes a + nodes b) := by
  have hperm (l r : RBTree α) : nodes (node c l x r) = {x} + (nodes l + nodes r) := by
    rw [nodes, inorder_node, Multiset.singleton_add, nodes, nodes, Multiset.coe_add,
      Multiset.cons_coe, Multiset.coe_eq_coe]
    exact List.perm_middle
  cases d with
  | left => exact hperm a b
  | right => exact (hperm b a).trans (by rw [add_comm (nodes a)])

@[simp] theorem nodes_paint (c : Color) (t : RBTree α) : nodes (paint c t) = nodes t := by
  rw [nodes, inorder_paint, nodes]

/-- The nodes of the frames of a path. -/
def pathNodes : Path α → Multiset α
  | [] => 0
  | .left _ x r :: p => {x} + (nodes r + pathNodes p)
  | .right _ l x :: p => {x} + (nodes l + pathNodes p)

@[simp] theorem pathNodes_nil : pathNodes ([] : Path α) = 0 := rfl

@[simp] theorem pathNodes_ofSide (d : Side) (c : Color) (x : α) (b : RBTree α) (p : Path α) :
    pathNodes (.ofSide d c x b :: p) = {x} + (nodes b + pathNodes p) := by cases d <;> rfl

end sides

/-- The pointer to a tree. -/
def ptr : RBTree (Word w) → Word w
  | nil => 0
  | node _ _ x _ => x

/-- The parent of a position, when the path ends below `base`. -/
def up (base : Word w) : Path (Word w) → Word w
  | [] => base
  | .left _ x _ :: _ => x
  | .right _ _ x :: _ => x

/-- The pointer to the root of a tree with the pointer `q` at a position. -/
def rootPtr : Word w → Path (Word w) → Word w
  | q, [] => q
  | _, .left _ x _ :: p => rootPtr x p
  | _, .right _ _ x :: p => rootPtr x p

section ptr
variable (d : Side) (c : Color) (x base : Word w) (a b : RBTree (Word w)) (p : Path (Word w))

@[simp] theorem ptr_nil : ptr (nil : RBTree (Word w)) = 0 := rfl

@[simp] theorem ptr_node : ptr (node c a x b) = x := rfl

@[simp] theorem ptr_ofSide : ptr (ofSide d c a x b) = x := by cases d <;> rfl

@[simp] theorem ptr_paint (t : RBTree (Word w)) : ptr (paint c t) = ptr t := by cases t <;> rfl

@[simp] theorem up_nil : up base [] = base := rfl

@[simp] theorem up_ofSide : up base (.ofSide d c x b :: p) = x := by cases d <;> rfl

@[simp] theorem rootPtr_nil (q : Word w) : rootPtr q [] = q := rfl

@[simp] theorem rootPtr_ofSide (q : Word w) : rootPtr q (.ofSide d c x b :: p) = rootPtr x p := by
  cases d <;> rfl

end ptr

/-- A node of a tree in memory. -/
structure IsNode (m : Word w → Option (RBNode w)) (d : Side) (x par : Word w) (c : Color)
    (a b : Word w) : Prop where
  ne_zero : x ≠ 0
  aligned : Aligned x
  parent : Aligned par
  read : m x = some (RBNode.ofSide d (pack par c) a b)

/-- The tree lies in memory below the parent `par`. -/
def Stored (m : Word w → Option (RBNode w)) : Word w → RBTree (Word w) → Prop
  | _, nil => True
  | par, node c l x r => IsNode m .left x par c (ptr l) (ptr r) ∧ Stored m x l ∧ Stored m x r

/-- The frames of a path lie in memory below the parent `base`, with the pointer `q` at the
position. -/
def PathStored (m : Word w → Option (RBNode w)) (base : Word w) : Word w → Path (Word w) → Prop
  | _, [] => True
  | q, .left c x r :: p =>
      IsNode m .left x (up base p) c q (ptr r) ∧ Stored m x r ∧ PathStored m base x p
  | q, .right c l x :: p =>
      IsNode m .right x (up base p) c q (ptr l) ∧ Stored m x l ∧ PathStored m base x p

section stored
variable {m m' : Word w → Option (RBNode w)}

theorem IsNode.other {d : Side} {x par : Word w} {c : Color} {a b : Word w}
    (h : IsNode m d x par c a b) : IsNode m d.other x par c b a :=
  ⟨h.ne_zero, h.aligned, h.parent, by rw [RBNode.ofSide_other]; exact h.read⟩

theorem IsNode.congr {d : Side} {x par : Word w} {c : Color} {a b : Word w} (hm : m' x = m x)
    (h : IsNode m d x par c a b) : IsNode m' d x par c a b :=
  ⟨h.ne_zero, h.aligned, h.parent, by rw [hm]; exact h.read⟩

@[simp] theorem stored_nil (par : Word w) : Stored m par nil := trivial

@[simp] theorem stored_ofSide (par : Word w) (d : Side) (c : Color) (a : RBTree (Word w))
    (x : Word w) (b : RBTree (Word w)) :
    Stored m par (ofSide d c a x b) ↔
      IsNode m d x par c (ptr a) (ptr b) ∧ Stored m x a ∧ Stored m x b := by
  cases d with
  | left => exact Iff.rfl
  | right =>
      constructor
      · rintro ⟨h, hb, ha⟩
        exact ⟨h.other, ha, hb⟩
      · rintro ⟨h, ha, hb⟩
        exact ⟨h.other, hb, ha⟩

@[simp] theorem pathStored_nil (base q : Word w) : PathStored m base q [] := trivial

@[simp] theorem pathStored_ofSide (base q : Word w) (d : Side) (c : Color) (x : Word w)
    (b : RBTree (Word w)) (p : Path (Word w)) :
    PathStored m base q (.ofSide d c x b :: p) ↔
      IsNode m d x (up base p) c q (ptr b) ∧ Stored m x b ∧ PathStored m base x p := by
  cases d <;> exact Iff.rfl

/-- A tree depends on the memory of its nodes only. -/
theorem Stored.congr {par : Word w} {t : RBTree (Word w)} (hm : ∀ k ∈ nodes t, m' k = m k)
    (h : Stored m par t) : Stored m' par t := by
  induction t generalizing par with
  | nil => trivial
  | node c l x r ihl ihr =>
      obtain ⟨hx, hl, hr⟩ := h
      refine ⟨hx.congr (hm x (by simp [nodes])), ihl ?_ hl, ihr ?_ hr⟩
      · intro k hk
        exact hm k (List.mem_append_left _ hk)
      · intro k hk
        exact hm k (List.mem_append_right _ (List.mem_cons_of_mem _ hk))

theorem PathStored.congr {base q : Word w} {p : Path (Word w)} (hm : ∀ k ∈ pathNodes p, m' k = m k)
    (h : PathStored m base q p) : PathStored m' base q p := by
  induction p generalizing q with
  | nil => trivial
  | cons f p ih =>
      obtain ⟨d, c, x, b, rfl⟩ := f.exists_ofSide
      rw [pathStored_ofSide] at h ⊢
      obtain ⟨hx, hb, hp⟩ := h
      refine ⟨hx.congr (hm x (by simp)), hb.congr ?_, ih ?_ hp⟩
      · intro k hk
        exact hm k (by simp [hk])
      · intro k hk
        exact hm k (by simp [hk])

/-- The parent of a position is aligned. -/
theorem PathStored.aligned_up {base q : Word w} {p : Path (Word w)} (h : PathStored m base q p)
    (hbase : Aligned base) : Aligned (up base p) := by
  cases p with
  | nil => exact hbase
  | cons f p =>
      obtain ⟨d, c, x, b, rfl⟩ := f.exists_ofSide
      rw [pathStored_ofSide] at h
      rw [up_ofSide]
      exact h.1.aligned

end stored

end RBTree

end HevTunnel
