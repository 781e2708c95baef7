import HevTunnel.RBTreeRun

/-! # Walking a red-black tree in memory

`hev_rbtree_first`, `hev_rbtree_last`, `hev_rbtree_node_next` and `hev_rbtree_node_prev` only follow
pointers.  A step to the next node goes down into the right subtree, or up to the first ancestor that
has the node in its left one; a step to the previous node is its mirror image, so both are written
once for a `Side`.

`WellFormed.far` and `WellFormed.neighbours`: in a tree with the in-order sequence `ns` the four functions
end and give the ends of `ns` and the neighbours in it, with `NULL` at the two ends.  `reachable_visit`:
the loops over all nodes visit `ns`, or `ns` backwards. -/

namespace HevTunnel

variable {w : ℕ}

namespace RBHeap

/-- `while (n->left) n = n->left`, and with `right` its mirror image. -/
def farLoop (d : Side) : ℕ → RBHeap w → Word w → Option (Word w)
  | 0, _, _ => none
  | fuel + 1, s, n =>
      (s.read n).bind fun m => if m.child d ≠ 0 then farLoop d fuel s (m.child d) else some n

/-- The last node at one side of the tree. -/
def far (d : Side) (fuel : ℕ) (s : RBHeap w) : Option (Word w) :=
  if s.root = 0 then some 0 else farLoop d fuel s s.root

/-- `hev_rbtree_first`. -/
def first (fuel : ℕ) (s : RBHeap w) : Option (Word w) := s.far .left fuel

/-- `hev_rbtree_last`. -/
def last (fuel : ℕ) (s : RBHeap w) : Option (Word w) := s.far .right fuel

/-- `while ((parent = hev_rbtree_node_parent (node)) && node == parent->right) node = parent`, and
with `left` its mirror image: the parent at the end. -/
def climbLoop (d : Side) : ℕ → RBHeap w → Word w → Option (Word w)
  | 0, _, _ => none
  | fuel + 1, s, node =>
      (s.read node).bind fun n =>
        if n.parent = 0 then some 0
        else (s.read n.parent).bind fun m =>
          if node = m.child d then climbLoop d fuel s n.parent else some n.parent

/-- The neighbour of a node at one side. -/
def neighbour (d : Side) (fuel : ℕ) (s : RBHeap w) (node : Word w) : Option (Word w) := do
  let n ← s.read node
  -- `hev_rbtree_node_empty`
  if n.parentColor = node then some 0
  else if n.child d ≠ 0 then farLoop d.other fuel s (n.child d)
  else climbLoop d fuel s node

/-- `hev_rbtree_node_next`. -/
def nodeNext (fuel : ℕ) (s : RBHeap w) (node : Word w) : Option (Word w) :=
  s.neighbour .right fuel node

/-- `hev_rbtree_node_prev`. -/
def nodePrev (fuel : ℕ) (s : RBHeap w) (node : Word w) : Option (Word w) :=
  s.neighbour .left fuel node

end RBHeap

namespace RBTree

/-! ### Ends and neighbours of a term -/

/-- The node at one end of a list, `NULL` for none. -/
def endOf : Side → List (Word w) → Word w
  | .left, ns => ns.head?.getD 0
  | .right, ns => ns.getLast?.getD 0

/-- The nodes at one side of a position. -/
def beside : Side → Path (Word w) → List (Word w)
  | .left, p => before p
  | .right, p => after p

theorem inorder_ne_nil {t : RBTree (Word w)} (ht : t ≠ nil) : inorder t ≠ [] := by
  cases t with
  | nil => exact absurd rfl ht
  | node c l x r => simp

theorem endOf_left_append {u : List (Word w)} (hu : u ≠ []) (v : List (Word w)) :
    endOf .left (u ++ v) = endOf .left u := by
  rw [endOf, endOf, List.head?_append_of_ne_nil _ hu]

theorem endOf_right_append (u : List (Word w)) {v : List (Word w)} (hv : v ≠ []) :
    endOf .right (u ++ v) = endOf .right v := by
  rw [endOf, endOf, List.getLast?_append_of_ne_nil _ hv]

theorem endOf_reverse (ns : List (Word w)) : endOf .left ns.reverse = endOf .right ns := by
  rw [endOf, endOf, List.head?_reverse]

theorem endOf_ofSide_nil (d : Side) (c : Color) (x : Word w) (b : RBTree (Word w)) :
    endOf d (inorder (ofSide d c nil x b)) = x := by
  cases d <;> simp [endOf, ofSide]

theorem endOf_ofSide {a : RBTree (Word w)} (ha : a ≠ nil) (d : Side) (c : Color) (x : Word w)
    (b : RBTree (Word w)) : endOf d (inorder (ofSide d c a x b)) = endOf d (inorder a) := by
  cases d with
  | left => rw [ofSide, inorder_node, endOf_left_append (inorder_ne_nil ha)]
  | right => rw [ofSide, inorder_node, List.append_cons, endOf_right_append _ (inorder_ne_nil ha)]

theorem beside_ofSide (d : Side) (c : Color) (x : Word w) (b : RBTree (Word w))
    (p : Path (Word w)) : beside d (.ofSide d c x b :: p) = beside d p := by
  cases d <;> rfl

/-- The parent is the neighbour of a position at the other side. -/
theorem endOf_beside_ofSide (d : Side) (c : Color) (x : Word w) (b : RBTree (Word w))
    (p : Path (Word w)) : endOf d (beside d.other (.ofSide d c x b :: p)) = x := by
  cases d <;> simp [endOf, beside, Side.other, Frame.ofSide, before, after]

/-! ### The loops -/

section loops
variable {s : RBHeap w} {t : RBTree (Word w)} {p : Path (Word w)} {d : Side}

theorem farLoop_stored {par : Word w} (h : Stored s.mem par t) (ht : t ≠ nil) :
    ∀ fuel, (inorder t).length ≤ fuel → s.farLoop d fuel (ptr t) = some (endOf d (inorder t)) := by
  induction t generalizing par with
  | nil => exact absurd rfl ht
  | node c l x r ihl ihr =>
      intro fuel hfuel
      -- the subtree at the side of the walk, and what the induction says about it
      obtain ⟨a, b, hnode, ih⟩ : ∃ a b, node c l x r = ofSide d c a x b ∧
          (Stored s.mem x a → a ≠ nil → ∀ fuel, (inorder a).length ≤ fuel →
            s.farLoop d fuel (ptr a) = some (endOf d (inorder a))) := by
        cases d with
        | left => exact ⟨l, r, rfl, ihl⟩
        | right => exact ⟨r, l, rfl, ihr⟩
      have hlen : (inorder (node c l x r)).length = 1 + ((inorder a).length + (inorder b).length) := by
        have hcard := congrArg Multiset.card (nodes_ofSide d c a x b)
        rw [← hnode] at hcard
        simpa only [Multiset.card_add, Multiset.card_singleton, nodes, Multiset.coe_card] using hcard
      rw [hlen] at hfuel
      obtain ⟨fuel, rfl⟩ : ∃ n, fuel = n + 1 := ⟨fuel - 1, by omega⟩
      rw [hnode] at h ⊢
      obtain ⟨hx, ha, -⟩ := (stored_ofSide ..).mp h
      rw [ptr_ofSide, RBHeap.farLoop, RBHeap.read, if_neg hx.ne_zero, hx.read, Option.bind_some,
        RBNode.child_ofSide]
      by_cases hnil : a = nil
      · subst hnil
        rw [ptr_nil, if_neg (not_not.mpr rfl), endOf_ofSide_nil]
      · have hptr : ptr a ≠ 0 := by
          cases a with
          | nil => exact absurd rfl hnil
          | node c' l' y r' => exact ha.1.ne_zero
        rw [if_pos hptr, endOf_ofSide hnil]
        exact ih ha hnil fuel (by omega)

/-- The way up ends at the neighbour of the subtree. -/
theorem climbLoop_at (h : At s t p) (ht : t ≠ nil) :
    ∀ fuel, p.length < fuel →
      s.climbLoop d fuel (ptr t) = some (endOf d.other (beside d p)) := by
  induction p generalizing t with
  | nil =>
      intro fuel hfuel
      obtain ⟨fuel, rfl⟩ : ∃ n, fuel = n + 1 := ⟨fuel - 1, by omega⟩
      cases t with
      | nil => exact absurd rfl ht
      | node c l x r =>
          have h := at_node h
          rw [ptr_node, RBHeap.climbLoop, h.read (i := 0) rfl, Option.bind_some,
            RBNode.parent_ofSide _ _ _ (h.isNode (i := 0) rfl).parent, up_nil, if_pos rfl]
          cases d <;> rfl
  | cons f p ih =>
      intro fuel hfuel
      obtain ⟨fuel, rfl⟩ : ∃ n, fuel = n + 1 := ⟨fuel - 1, by omega⟩
      obtain ⟨d', c, y, b, rfl⟩ := f.exists_ofSide
      have hread : ∃ n, s.read (ptr t) = some n ∧ n.parent = y := by
        cases t with
        | nil => exact absurd rfl ht
        | node c l x r =>
            have h := at_node h
            refine ⟨_, h.read (i := 0) rfl, ?_⟩
            rw [RBNode.parent_ofSide _ _ _ (h.isNode (i := 0) rfl).parent, up_ofSide]
      obtain ⟨n, hn, hparent⟩ := hread
      have h' := Holds.frame_iff.mp h
      rw [RBHeap.climbLoop, hn, Option.bind_some, hparent,
        if_neg (h'.isNode (i := 0) rfl).ne_zero, h'.read (i := 0) rfl, Option.bind_some]
      rcases d.eq_or_eq_other d' with rfl | rfl
      · rw [RBNode.child_ofSide, if_pos rfl, beside_ofSide]
        have hup := ih (at_ofSide.mp h) (ofSide_ne_nil d c t y b) fuel (by simpa using hfuel)
        rwa [ptr_ofSide] at hup
      · have hne : ptr t ≠ ptr b := h'.ptr_ne (i := 2) (j := 1) rfl rfl (by decide) ht
        rw [RBNode.child_other_ofSide, if_neg hne, Side.other_other, endOf_beside_ofSide]

variable [NeZero w]

/-- A node of a tree is not marked as empty. -/
theorem IsNode.word_ne {m : Word w → Option (RBNode w)} {x par : Word w} {c : Color} {a b : Word w}
    (h : IsNode m d x par c a b) (hne : x ≠ par) : pack par c ≠ x := by
  cases c with
  | red =>
      rw [pack_red]
      exact hne.symm
  | black =>
      intro heq
      have hone : x &&& 1 = Color.black.word w := by
        rw [← heq]
        exact pack_and_one h.parent .black
      have hzero : x &&& 1 = 0 := by
        have hand : x &&& 3 &&& 1 = x &&& 1 := by
          rw [BitVec.and_assoc, BitVec.and_comm 3, one_and_three]
        rw [← hand, h.aligned]
        exact BitVec.zero_and
      rw [hzero] at hone
      simp [Color.word, NeZero.ne w] at hone

/-- The neighbour at a side: the nearest node of the subtree there, or of what lies beside the whole
subtree. -/
theorem neighbour_at {c : Color} {a b : RBTree (Word w)} {x : Word w}
    (h : At s (ofSide d c a x b) p) {fuel : ℕ} (hlen : (inorder a).length ≤ fuel)
    (hpath : p.length < fuel) :
    s.neighbour d fuel x =
      some (endOf d.other (if a = nil then beside d p else inorder a)) := by
  have h' := Holds.tree_iff.mp h
  have hx := h'.isNode (i := 0) rfl
  have hself : x ≠ up 0 p := by
    cases p with
    | nil => exact hx.ne_zero
    | cons f p =>
        obtain ⟨d', c', y, b', rfl⟩ := f.exists_ofSide
        rintro rfl
        refine h'.not_mem_path (i := 0) rfl ?_
        rw [up_ofSide, pathNodes_ofSide]
        simp
  simp only [RBHeap.neighbour, h'.read (i := 0) rfl, RBNode.parentColor_ofSide,
    RBNode.child_ofSide, Option.bind_eq_bind, Option.bind_some, if_neg (hx.word_ne hself)]
  by_cases ha : a = nil
  · subst ha
    rw [ptr_nil, if_neg (not_not.mpr rfl), if_pos rfl]
    have hclimb := climbLoop_at (d := d) h (ofSide_ne_nil d c nil x b) fuel hpath
    rwa [ptr_ofSide] at hclimb
  · rw [if_pos (mt (h'.ptr_eq_zero (i := 1) rfl).mp ha), if_neg ha]
    exact farLoop_stored (h'.stored (i := 1) rfl) ha fuel hlen

end loops

end RBTree

namespace RBHeap

open HevTunnel.RBTree

section walk
variable {s : RBHeap w} {ns : List (Word w)}

theorem WellFormed.far (h : s.WellFormed ns) (d : Side) {fuel : ℕ} (hfuel : ns.length ≤ fuel) :
    s.far d fuel = some (endOf d ns) := by
  obtain ⟨t, hrep, -, rfl⟩ := h
  rw [RBHeap.far, hrep.root]
  cases t with
  | nil => cases d <;> rfl
  | node c l x r =>
      have hx : ptr (node c l x r) ≠ 0 := hrep.stored.1.ne_zero
      rw [if_neg hx]
      exact farLoop_stored hrep.stored (by simp) fuel hfuel

variable [NeZero w] {a b : List (Word w)} {x : Word w}

/-- The neighbours of a member, in the order of the sequence. -/
theorem WellFormed.neighbours (h : s.WellFormed (a ++ x :: b)) {fuel : ℕ}
    (hfuel : (a ++ x :: b).length ≤ fuel) :
    s.nodePrev fuel x = some (endOf .right a) ∧ s.nodeNext fuel x = some (endOf .left b) := by
  obtain ⟨t, hrep, -, hns⟩ := h
  obtain ⟨c, l, r, p, rfl⟩ := exists_plug_node (t := t) (x := x) (by simp [hns])
  have hat := at_plug.mpr (represents_iff.mp hrep)
  have hnd := hrep.nodup
  rw [inorder_plug, inorder_node, List.append_assoc, List.cons_append, ← List.append_assoc] at hns
  rw [inorder_plug, inorder_node, List.append_assoc, List.cons_append, ← List.append_assoc] at hnd
  obtain ⟨rfl, rfl⟩ := append_cons_inj hnd hns
  have hlen : p.length ≤ (pathNodes p).card := length_le_card p
  have hcard : (pathNodes p).card = (before p).length + (after p).length := by
    have hnil := congrArg Multiset.card (nodes_plug (nil : RBTree (Word w)) p)
    rw [nodes_nil, add_zero, nodes, inorder_plug] at hnil
    simpa using hnil.symm
  simp only [List.length_append, List.length_cons] at hfuel
  constructor
  · rw [nodePrev, neighbour_at (d := .left) hat (by omega) (by omega)]
    split_ifs with hl
    · rw [hl, inorder_nil, List.append_nil]
      rfl
    · rw [endOf_right_append _ (inorder_ne_nil hl)]
      rfl
  · rw [nodeNext, neighbour_at (d := .right) hat (by omega) (by omega)]
    split_ifs with hr
    · rw [hr, inorder_nil, List.nil_append]
      rfl
    · rw [endOf_left_append (inorder_ne_nil hr)]
      rfl

omit [NeZero w] in
/-- Every member is a node in memory. -/
theorem WellFormed.isNode (h : s.WellFormed ns) {y : Word w} (hy : y ∈ ns) :
    ∃ par c a b, IsNode s.mem .left y par c a b := by
  obtain ⟨t, hrep, -, rfl⟩ := h
  obtain ⟨c, l, r, p, rfl⟩ := exists_plug_node hy
  exact ⟨_, _, _, _, (at_node (at_plug.mpr (represents_iff.mp hrep))).isNode (i := 0) rfl⟩

omit [NeZero w] in
theorem WellFormed.ne_zero (h : s.WellFormed ns) : ∀ y ∈ ns, y ≠ 0 := by
  intro y hy
  obtain ⟨_, _, _, _, hnode⟩ := h.isNode hy
  exact hnode.ne_zero

/-- The nodes that a loop visits which goes from node to node at one side until `NULL`. -/
def visitLoop (d : Side) (fuel : ℕ) (s : RBHeap w) : ℕ → Word w → Option (List (Word w))
  | 0, _ => none
  | rounds + 1, n =>
      if n = 0 then some []
      else (s.neighbour d fuel n).bind fun m => (visitLoop d fuel s rounds m).map (n :: ·)

/-- The nodes from one end of the tree to the other one: with `right` those of
`for (n = hev_rbtree_first (t); n; n = hev_rbtree_node_next (n))`. -/
def visit (d : Side) (fuel : ℕ) (s : RBHeap w) : Option (List (Word w)) :=
  (s.far d.other fuel).bind (visitLoop d fuel s fuel)

omit [NeZero w] in
theorem visitLoop_eq {d : Side} {fuel : ℕ} {ns : List (Word w)} (hne : ∀ y ∈ ns, y ≠ 0)
    (hnext : ∀ u y v, ns = u ++ y :: v → s.neighbour d fuel y = some (endOf .left v)) :
    ∀ rounds, ns.length < rounds → s.visitLoop d fuel rounds (endOf .left ns) = some ns := by
  induction ns with
  | nil =>
      intro rounds hrounds
      obtain ⟨rounds, rfl⟩ : ∃ n, rounds = n + 1 := ⟨rounds - 1, by omega⟩
      exact if_pos rfl
  | cons y ns ih =>
      intro rounds hrounds
      obtain ⟨rounds, rfl⟩ : ∃ n, rounds = n + 1 := ⟨rounds - 1, by omega⟩
      have hrest := ih (fun z hz => hne z (List.mem_cons_of_mem _ hz))
        (fun u z v hns => hnext (y :: u) z v (by rw [hns, List.cons_append])) rounds
        (by simpa using hrounds)
      have hy : endOf .left (y :: ns) = y := rfl
      rw [hy, visitLoop, if_neg (hne y List.mem_cons_self), hnext [] y ns rfl, Option.bind_some,
        hrest, Option.map_some]

/-- Every tree that a program can build is walked in order, from the first node to the last one and
back, and each walk ends. -/
theorem reachable_visit (h : Reachable s ns) (fuel : ℕ) (hfuel : ns.length < fuel) :
    s.visit .right fuel = some ns ∧ s.visit .left fuel = some ns.reverse := by
  have hwf := h.wellFormed
  constructor
  · rw [visit, hwf.far _ hfuel.le, Option.bind_some]
    refine visitLoop_eq hwf.ne_zero ?_ fuel hfuel
    rintro u y v rfl
    exact (hwf.neighbours hfuel.le).2
  · rw [visit, hwf.far _ hfuel.le, Option.bind_some]
    have hends : endOf Side.left.other ns = endOf .left ns.reverse := (endOf_reverse ns).symm
    rw [hends]
    refine visitLoop_eq ?_ ?_ fuel (by simpa using hfuel)
    · intro y hy
      exact hwf.ne_zero y (List.mem_reverse.mp hy)
    · intro u y v hrev
      have hns : ns = v.reverse ++ y :: u.reverse := by
        rw [← List.reverse_reverse ns, hrev, List.reverse_append, List.reverse_cons,
          List.append_assoc, List.singleton_append]
      subst hns
      have hprev := (hwf.neighbours hfuel.le).1
      rwa [← endOf_reverse, List.reverse_reverse] at hprev

end walk

/-- A tree of five nodes. -/
theorem reachable_visit_ascending : ∃ s : RBHeap 64, Reachable s [8, 16, 24, 32, 40] ∧ s.root = 16 ∧
    s.visit .right 6 = some [8, 16, 24, 32, 40] ∧ s.visit .left 6 = some [40, 32, 24, 16, 8] := by
  obtain ⟨s, hs, h⟩ := reachable_ascending 5 le_rfl
  have hroot : (ascending 5).map root = some 16 := by decide +kernel
  rw [hs] at hroot
  exact ⟨s, h, Option.some.inj hroot, reachable_visit h 6 (by decide)⟩

end RBHeap

end HevTunnel
