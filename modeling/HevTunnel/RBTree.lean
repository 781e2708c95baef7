import Mathlib.Data.List.Basic
import Mathlib.Tactic.SplitIfs
import Mathlib.Tactic.Linarith

/-! # The red-black tree

`hev-rbtree.c` links its nodes by child and parent pointers and repairs the colours by two
loops that walk from a node towards the root.  Here a tree is a term and a position in it is
a zipper: the subtree at the position together with the list of frames up to the root,
innermost first.  The two loops walk that list.

* `insertColor t p` is the loop of `hev_rbtree_insert_color` for the red node `t` below `p`;
* `eraseNode` is `_hev_rbtree_erase` and `eraseColor` is the loop of
  `_hev_rbtree_erase_color`.

A result `none` is a `NULL` dereference: a red node without a grandparent, or a deficient
node without a sibling.  Both operations keep the in-order sequence whatever the colours are
(`inorder_link`, `inorder_erase`); `RBTreeBalance.lean` shows that on a balanced tree neither
ever meets a `NULL`. -/

namespace HevTunnel

/-- Node colours. -/
inductive Color where
  | red
  | black
deriving DecidableEq, Repr

/-- The tree below a child pointer; `nil` is the `NULL` pointer. -/
inductive RBTree (α : Type) where
  | nil
  | node (c : Color) (l : RBTree α) (x : α) (r : RBTree α)
deriving DecidableEq, Repr

namespace RBTree

variable {α : Type}

/-- One step from a child to its parent: the parent's colour and value, and its other child. -/
inductive Frame (α : Type) where
  | left (c : Color) (x : α) (r : RBTree α)
  | right (c : Color) (l : RBTree α) (x : α)
deriving Repr

/-- The way from a position to the root, innermost frame first. -/
abbrev Path (α : Type) := List (Frame α)

/-- Put a subtree back at its position. -/
def plug : RBTree α → Path α → RBTree α
  | t, [] => t
  | t, .left c x r :: p => plug (.node c t x r) p
  | t, .right c l x :: p => plug (.node c l x t) p

def inorder : RBTree α → List α
  | nil => []
  | node _ l x r => inorder l ++ x :: inorder r

/-- The values that precede a position in order. -/
def before : Path α → List α
  | [] => []
  | .left _ _ _ :: p => before p
  | .right _ l x :: p => before p ++ (inorder l ++ [x])

/-- The values that follow a position in order. -/
def after : Path α → List α
  | [] => []
  | .left _ x r :: p => x :: inorder r ++ after p
  | .right _ _ _ :: p => after p

def rootColor : RBTree α → Color
  | nil => .black
  | node c _ _ _ => c

/-- Colour the root of a subtree; a `NULL` child stays `NULL`. -/
def paint (c : Color) : RBTree α → RBTree α
  | nil => nil
  | node _ l x r => node c l x r

abbrev blacken (t : RBTree α) : RBTree α := paint .black t

@[simp] theorem inorder_nil : inorder (nil : RBTree α) = [] := rfl

@[simp] theorem inorder_node (c : Color) (l : RBTree α) (x : α) (r : RBTree α) :
    inorder (node c l x r) = inorder l ++ x :: inorder r := rfl

@[simp] theorem inorder_paint (c : Color) (t : RBTree α) : inorder (paint c t) = inorder t := by
  cases t <;> rfl

@[simp] theorem inorder_plug : ∀ (t : RBTree α) (p : Path α),
    inorder (plug t p) = before p ++ (inorder t ++ after p)
  | t, [] => by simp [plug, before, after]
  | t, .left c x r :: p => by
      rw [plug, inorder_plug]
      simp [before, after]
  | t, .right c l x :: p => by
      rw [plug, inorder_plug]
      simp [before, after]

/-! ### Searching -/

/-- The descent of the callers of `hev_rbtree_node_link`: `cmp x` compares the node `x` with
the key, a negative result goes left and a positive one right.  The answer is the node that
compares equal, or the free child slot where the descent ended. -/
def descend (cmp : α → Option Int) : RBTree α → Path α → Option (Option α × Path α)
  | nil, p => some (none, p)
  | node c l x r, p => do
      let res ← cmp x
      if res < 0 then descend cmp l (.left c x r :: p)
      else if 0 < res then descend cmp r (.right c l x :: p)
      else pure (some x, p)

/-- `hev_rbtree_first`. -/
def first : RBTree α → Option α
  | nil => none
  | node _ nil x _ => some x
  | node _ (node c l y r) _ _ => first (node c l y r)

/-- The first node is the first one in order. -/
theorem first_eq_head? : ∀ t : RBTree α, first t = (inorder t).head?
  | nil => rfl
  | node _ nil x _ => rfl
  | node _ (node c l y r) x t => by
      rw [first, first_eq_head?, inorder_node _ (node c l y r), List.head?_append_of_ne_nil]
      rw [inorder_node]
      exact List.append_ne_nil_of_right_ne_nil _ (List.cons_ne_nil _ _)

/-- The position of the node `q` selects, as its own pointers give it. -/
def locate (q : α → Bool) :
    RBTree α → Path α → Option (Color × RBTree α × α × RBTree α × Path α)
  | nil, _ => none
  | node c l x r, p =>
      if q x then some (c, l, x, r, p)
      else (locate q l (.left c x r :: p)).or (locate q r (.right c l x :: p))

/-! ### Insertion -/

/-- The subtree of the parent whose child is the focus. -/
def Frame.close : Frame α → RBTree α → RBTree α
  | .left c x r, t => .node c t x r
  | .right c l x, t => .node c l x t

def Frame.color : Frame α → Color
  | .left c _ _ => c
  | .right c _ _ => c

/-- Cases 2 and 3 of `hev_rbtree_insert_color` when the parent is the left child of the
grandparent `g` (colour `cg`) and the uncle `u` is black. -/
def insertRotateLeft (t : RBTree α) (f : Frame α) (cg : Color) (g : α) (u : RBTree α) :
    Option (RBTree α) :=
  match f, t with
  | .right _ pl px, .node _ nl nx nr =>
      some (.node cg (.node .red pl px (blacken nl)) nx (.node .red (blacken nr) g u))
  | .right _ _ _, .nil => none
  | .left _ px pr, t => some (.node cg t px (.node .red (blacken pr) g u))

/-- The mirror image, for a parent that is the right child of the grandparent. -/
def insertRotateRight (t : RBTree α) (f : Frame α) (cg : Color) (g : α) (u : RBTree α) :
    Option (RBTree α) :=
  match f, t with
  | .left _ px pr, .node _ nl nx nr =>
      some (.node cg (.node .red u g (blacken nl)) nx (.node .red (blacken nr) px pr))
  | .left _ _ _, .nil => none
  | .right _ pl px, t => some (.node cg (.node .red u g (blacken pl)) px t)

/-- The loop of `hev_rbtree_insert_color`: `t` is the red node, `p` its way to the root. -/
def insertColor : RBTree α → Path α → Option (RBTree α)
  | t, [] => some (blacken t)
  | t, [f] => if f.color = .black then some (f.close t) else none
  | t, f :: .left cg g u :: p =>
      if f.color = .black then some (plug t (f :: .left cg g u :: p))
      else if u.rootColor = .red then
        -- case 1: the colours of parent, uncle and grandparent flip and the loop goes on
        insertColor (.node .red (blacken (f.close t)) g (blacken u)) p
      else (insertRotateLeft t f cg g u).map (plug · p)
  | t, f :: .right cg u g :: p =>
      if f.color = .black then some (plug t (f :: .right cg u g :: p))
      else if u.rootColor = .red then
        insertColor (.node .red (blacken u) g (blacken (f.close t))) p
      else (insertRotateRight t f cg g u).map (plug · p)

/-- `hev_rbtree_node_link` at the slot `p`, then `hev_rbtree_insert_color`. -/
def link (x : α) (p : Path α) : Option (RBTree α) := insertColor (.node .red .nil x .nil) p

/-! ### Erasure -/

/-- What one round of the erase loop leaves at the parent: a repaired subtree, or a subtree
that is still one black node short. -/
inductive Fix (α : Type) where
  | done (t : RBTree α)
  | up (t : RBTree α)

/-- Cases 2 to 4 of `_hev_rbtree_erase_color` for a deficient left child `t` of the parent
`px` (colour `cp`) with the sibling `s`. -/
def fixLeft (t : RBTree α) (cp : Color) (px : α) : RBTree α → Option (Fix α)
  | .nil => none
  | .node _ sl sx sr =>
      match sr.rootColor, sl, cp with
      | .red, sl, cp => some (.done (.node cp (.node .black t px sl) sx (blacken sr)))
      | .black, .node .red a y b, cp =>
          -- case 3, a right rotation at the sibling, runs into case 4
          some (.done (.node cp (.node .black t px a) y (.node .black (blacken b) sx sr)))
      | .black, sl, .red => some (.done (.node .black t px (.node .red sl sx sr)))
      | .black, sl, .black => some (.up (.node .black t px (.node .red sl sx sr)))

/-- The mirror image, for a deficient right child. -/
def fixRight (t : RBTree α) (cp : Color) (px : α) : RBTree α → Option (Fix α)
  | .nil => none
  | .node _ sl sx sr =>
      match sl.rootColor, sr, cp with
      | .red, sr, cp => some (.done (.node cp (blacken sl) sx (.node .black sr px t)))
      | .black, .node .red a y b, cp =>
          some (.done (.node cp (.node .black sl sx (blacken a)) y (.node .black b px t)))
      | .black, sr, .red => some (.done (.node .black (.node .red sl sx sr) px t))
      | .black, sr, .black => some (.up (.node .black (.node .red sl sx sr) px t))

/-- One round of the loop of `_hev_rbtree_erase_color` for the deficient node `t` below `f`.
Case 1 leaves a red parent, below which cases 2 to 4 never answer `up`. -/
def eraseRound (t : RBTree α) : Frame α → Option (Fix α)
  | .left cp px (.node .red sl sx sr) =>
      -- case 1: a left rotation at the parent gives the node the black sibling `sl`
      match fixLeft t .red px (blacken sl) with
      | some (.done u) => some (.done (.node cp u sx sr))
      | _ => none
  | .right cp (.node .red sl sx sr) px =>
      match fixRight t .red px (blacken sr) with
      | some (.done u) => some (.done (.node cp sl sx u))
      | _ => none
  | .left cp px s => fixLeft t cp px s
  | .right cp s px => fixRight t cp px s

/-- The loop of `_hev_rbtree_erase_color`: `t` is the deficient node, `p` its way to the root. -/
def eraseColor : RBTree α → Path α → Option (RBTree α)
  | t, [] => some t
  | t, f :: p =>
      match eraseRound t f with
      | none => none
      | some (.done u) => some (plug u p)
      | some (.up u) => eraseColor u p

/-- The leftmost node of a subtree: its colour, value and right child, and the way from it to
the root of the subtree followed by `acc`. -/
def leftmost (c : Color) : RBTree α → α → RBTree α → Path α → Color × α × RBTree α × Path α
  | .nil, x, r, acc => (c, x, r, acc)
  | .node c' l' x' r', x, r, acc => leftmost c' l' x' r' (.left c x r :: acc)

/-- The third branch of `_hev_rbtree_erase`: the successor `s` takes the place and the colour
`c` of the erased node, whose left child is `l`, and `child2` takes the successor's. -/
def eraseSuccessor (c : Color) (l : RBTree α) (p : Path α) :
    Color × α × RBTree α × Path α → Option (RBTree α)
  | (cs, s, .nil, q) =>
      if cs = .black then eraseColor .nil (q ++ .right c l s :: p)
      else some (plug .nil (q ++ .right c l s :: p))
  | (_, s, child2, q) => some (plug (blacken child2) (q ++ .right c l s :: p))

/-- `_hev_rbtree_erase` of the node of colour `c` with children `l` and `r` at `p`, with the
repair it calls for. -/
def eraseNode (c : Color) (l r : RBTree α) (p : Path α) : Option (RBTree α) :=
  match l, r with
  | .nil, .nil => if c = .black then eraseColor .nil p else some (plug .nil p)
  | .nil, child => some (plug (paint c child) p)
  | tmp, .nil => some (plug (paint c tmp) p)
  | l, .node cr rl rx rr => eraseSuccessor c l p (leftmost cr rl rx rr [])

/-- `hev_rbtree_erase` of the node `q` selects. -/
def erase (q : α → Bool) (t : RBTree α) : Option (RBTree α) := do
  let (c, l, _, r, p) ← locate q t []
  eraseNode c l r p

/-! ### The in-order sequence -/

theorem inorder_close (f : Frame α) (t : RBTree α) (p : Path α) :
    before p ++ (inorder (f.close t) ++ after p) =
      before (f :: p) ++ (inorder t ++ after (f :: p)) := by
  cases f <;> simp [Frame.close, before, after]

theorem inorder_insertRotateLeft {t : RBTree α} {f : Frame α} {cg : Color} {g : α}
    {u t' : RBTree α} (h : insertRotateLeft t f cg g u = some t') :
    inorder t' = inorder (f.close t) ++ g :: inorder u := by
  cases f with
  | left c px pr =>
      simp only [insertRotateLeft, Option.some.injEq] at h
      subst h
      simp [Frame.close]
  | right c pl px =>
      cases t with
      | nil => simp [insertRotateLeft] at h
      | node c' nl nx nr =>
          simp only [insertRotateLeft, Option.some.injEq] at h
          subst h
          simp [Frame.close]

theorem inorder_insertRotateRight {t : RBTree α} {f : Frame α} {cg : Color} {g : α}
    {u t' : RBTree α} (h : insertRotateRight t f cg g u = some t') :
    inorder t' = inorder u ++ g :: inorder (f.close t) := by
  cases f with
  | right c pl px =>
      simp only [insertRotateRight, Option.some.injEq] at h
      subst h
      simp [Frame.close]
  | left c px pr =>
      cases t with
      | nil => simp [insertRotateRight] at h
      | node c' nl nx nr =>
          simp only [insertRotateRight, Option.some.injEq] at h
          subst h
          simp [Frame.close]

/-- Insertion puts the new subtree's values at its position and moves no other. -/
theorem inorder_insertColor : ∀ (t : RBTree α) (p : Path α) {t' : RBTree α},
    insertColor t p = some t' → inorder t' = before p ++ (inorder t ++ after p)
  | t, [], t', h => by
      simp only [insertColor, Option.some.injEq] at h
      subst h
      simp [before, after]
  | t, [f], t', h => by
      simp only [insertColor] at h
      split_ifs at h
      rw [← inorder_plug, ← Option.some.inj h]
      cases f <;> rfl
  | t, f :: .left cg g u :: p, t', h => by
      simp only [insertColor] at h
      split_ifs at h
      · rw [← Option.some.inj h, inorder_plug]
      · rw [inorder_insertColor _ p h, ← inorder_close f]
        simp [before, after]
      · obtain ⟨t₁, h₁, rfl⟩ := Option.map_eq_some_iff.mp h
        rw [inorder_plug, inorder_insertRotateLeft h₁, ← inorder_close f]
        simp [before, after]
  | t, f :: .right cg u g :: p, t', h => by
      simp only [insertColor] at h
      split_ifs at h
      · rw [← Option.some.inj h, inorder_plug]
      · rw [inorder_insertColor _ p h, ← inorder_close f]
        simp [before, after]
      · obtain ⟨t₁, h₁, rfl⟩ := Option.map_eq_some_iff.mp h
        rw [inorder_plug, inorder_insertRotateRight h₁, ← inorder_close f]
        simp [before, after]

theorem inorder_link {x : α} {p : Path α} {t' : RBTree α} (h : link x p = some t') :
    inorder t' = before p ++ x :: after p := by
  simpa using inorder_insertColor _ p h

/-- The values of the subtree a round of the erase loop leaves. -/
def Fix.values : Fix α → List α
  | .done t => inorder t
  | .up t => inorder t

theorem fixLeft_values {t s : RBTree α} {cp : Color} {px : α} {f : Fix α}
    (h : fixLeft t cp px s = some f) : f.values = inorder t ++ px :: inorder s := by
  cases s with
  | nil => simp [fixLeft] at h
  | node cs sl sx sr =>
      simp only [fixLeft] at h
      split at h <;> cases h <;> simp [Fix.values]

theorem fixRight_values {t s : RBTree α} {cp : Color} {px : α} {f : Fix α}
    (h : fixRight t cp px s = some f) : f.values = inorder s ++ px :: inorder t := by
  cases s with
  | nil => simp [fixRight] at h
  | node cs sl sx sr =>
      simp only [fixRight] at h
      split at h <;> cases h <;> simp [Fix.values]

theorem eraseRound_values {t : RBTree α} {f : Frame α} {x : Fix α}
    (h : eraseRound t f = some x) : x.values = inorder (f.close t) := by
  unfold eraseRound at h
  split at h
  · split at h
    · rename_i hf
      have hv := fixLeft_values hf
      cases h
      simp_all [Fix.values, Frame.close]
    · cases h
  · split at h
    · rename_i hf
      have hv := fixRight_values hf
      cases h
      simp_all [Fix.values, Frame.close]
    · cases h
  · exact fixLeft_values h
  · exact fixRight_values h

/-- The erase loop keeps the in-order sequence. -/
theorem inorder_eraseColor (t : RBTree α) (p : Path α) {t' : RBTree α}
    (h : eraseColor t p = some t') : inorder t' = before p ++ (inorder t ++ after p) := by
  induction p generalizing t with
  | nil =>
      simp only [eraseColor, Option.some.injEq] at h
      subst h
      simp [before, after]
  | cons f p ih =>
      rw [← inorder_close]
      cases hr : eraseRound t f with
      | none => simp [eraseColor, hr] at h
      | some x =>
          have hv := eraseRound_values hr
          cases x with
          | done u =>
              simp only [eraseColor, hr, Option.some.injEq] at h
              rw [← h, inorder_plug, ← hv]
              rfl
          | up u =>
              simp only [eraseColor, hr] at h
              rw [ih u h, ← hv]
              rfl

theorem leftmost_inorder (c : Color) (l : RBTree α) (x : α) (r : RBTree α) (acc : Path α) :
    before (leftmost c l x r acc).2.2.2 = before acc ∧
      (leftmost c l x r acc).2.1 ::
          (inorder (leftmost c l x r acc).2.2.1 ++ after (leftmost c l x r acc).2.2.2) =
        inorder l ++ x :: (inorder r ++ after acc) := by
  induction l generalizing c x r acc with
  | nil => simp [leftmost]
  | node c' l' x' r' ihl _ =>
      obtain ⟨h₁, h₂⟩ := ihl c' x' r' (.left c x r :: acc)
      rw [leftmost]
      exact ⟨h₁, by rw [h₂]; simp [after]⟩

theorem before_append (q p : Path α) : before (q ++ p) = before p ++ before q := by
  induction q with
  | nil => simp [before]
  | cons f q ih => cases f <;> simp [before, ih]

theorem after_append (q p : Path α) : after (q ++ p) = after q ++ after p := by
  induction q with
  | nil => simp [after]
  | cons f q ih => cases f <;> simp [after, ih]

theorem inorder_eraseSuccessor {c : Color} {l : RBTree α} {p : Path α}
    {m : Color × α × RBTree α × Path α} {t' : RBTree α} (h : eraseSuccessor c l p m = some t') :
    inorder t' = before p ++ (inorder l ++ m.2.1 :: before m.2.2.2 ++
      (inorder m.2.2.1 ++ (after m.2.2.2 ++ after p))) := by
  unfold eraseSuccessor at h
  split at h
  · split_ifs at h
    · rw [inorder_eraseColor _ _ h, before_append, after_append]
      simp [before, after]
    · rw [← Option.some.inj h, inorder_plug, before_append, after_append]
      simp [before, after]
  · rw [← Option.some.inj h, inorder_plug, before_append, after_append]
    simp [before, after]

/-- Erasing a node removes its value from the sequence and moves no other. -/
theorem inorder_eraseNode {c : Color} {l r : RBTree α} {p : Path α} {t' : RBTree α}
    (h : eraseNode c l r p = some t') :
    inorder t' = before p ++ (inorder l ++ (inorder r ++ after p)) := by
  unfold eraseNode at h
  split at h
  · split_ifs at h
    · simpa using inorder_eraseColor _ _ h
    · rw [← Option.some.inj h, inorder_plug]
      simp
  · rw [← Option.some.inj h, inorder_plug]
    simp
  · rw [← Option.some.inj h, inorder_plug]
    simp
  · rename_i cr rl rx rr _
    obtain ⟨hb, ha⟩ := leftmost_inorder cr rl rx rr []
    rw [inorder_eraseSuccessor h, hb]
    simp only [before, after, List.append_nil, inorder_node] at ha ⊢
    rw [← ha]
    simp

/-! ### Searching a sorted tree -/

theorem locate_spec {q : α → Bool} {t : RBTree α} {p : Path α} {c : Color} {l : RBTree α}
    {x : α} {r : RBTree α} {p' : Path α} (h : locate q t p = some (c, l, x, r, p')) :
    q x = true ∧ plug (.node c l x r) p' = plug t p := by
  induction t generalizing p with
  | nil => simp [locate] at h
  | node c₀ l₀ x₀ r₀ ihl ihr =>
      rw [locate] at h
      split_ifs at h with hq
      · simp only [Option.some.injEq, Prod.mk.injEq] at h
        obtain ⟨rfl, rfl, rfl, rfl, rfl⟩ := h
        exact ⟨hq, rfl⟩
      · rcases Option.or_eq_some_iff.mp h with h | ⟨-, h⟩
        · exact ihl h
        · exact ihr h

theorem locate_isSome {q : α → Bool} : ∀ (t : RBTree α) (p : Path α),
    (∃ x ∈ inorder t, q x = true) → (locate q t p).isSome
  | .nil, _, h => by simp at h
  | .node c l x r, p, h => by
      rw [locate]
      split_ifs with hq
      · rfl
      · obtain ⟨y, hy, hqy⟩ := h
        rw [inorder_node, List.mem_append, List.mem_cons] at hy
        rcases hy with hy | rfl | hy
        · have := locate_isSome l (.left c x r :: p) ⟨y, hy, hqy⟩
          simp [this]
        · exact absurd hqy hq
        · have := locate_isSome r (.right c l x :: p) ⟨y, hy, hqy⟩
          simp [this]

/-- Erasing removes one selected value and keeps the rest in place. -/
theorem inorder_erase {q : α → Bool} {t t' : RBTree α} (h : erase q t = some t') :
    ∃ a x b, q x = true ∧ inorder t = a ++ x :: b ∧ inorder t' = a ++ b := by
  simp only [erase, Option.bind_eq_bind, Option.bind_eq_some_iff] at h
  obtain ⟨⟨c, l, x, r, p⟩, hl, he⟩ := h
  obtain ⟨hq, hp⟩ := locate_spec hl
  refine ⟨before p ++ inorder l, x, inorder r ++ after p, hq, ?_, ?_⟩
  · rw [show inorder t = inorder (plug t []) from rfl, ← hp, inorder_plug]
    simp
  · rw [inorder_eraseNode he]
    simp

theorem descend_found {cmp : α → Option Int} {t : RBTree α} {p p' : Path α} {x : α}
    (h : descend cmp t p = some (some x, p')) : x ∈ inorder t ∧ cmp x = some 0 := by
  induction t generalizing p with
  | nil => simp [descend] at h
  | node c l y r ihl ihr =>
      simp only [descend, Option.bind_eq_bind, Option.bind_eq_some_iff] at h
      obtain ⟨res, hres, h⟩ := h
      rw [inorder_node, List.mem_append, List.mem_cons]
      split_ifs at h with h₁ h₂
      · exact ⟨.inl (ihl h).1, (ihl h).2⟩
      · exact ⟨.inr (.inr (ihr h).1), (ihr h).2⟩
      · obtain ⟨rfl, rfl⟩ : y = x ∧ p = p' := by simpa using h
        have : res = 0 := by omega
        exact ⟨.inr (.inl rfl), by rw [hres, this]⟩

theorem descend_plug {cmp : α → Option Int} {t : RBTree α} {p p' : Path α}
    (h : descend cmp t p = some (none, p')) : plug nil p' = plug t p := by
  induction t generalizing p with
  | nil =>
      simp only [descend, Option.some.injEq, Prod.mk.injEq] at h
      rw [h.2]
  | node c l y r ihl ihr =>
      simp only [descend, Option.bind_eq_bind, Option.bind_eq_some_iff] at h
      obtain ⟨res, -, h⟩ := h
      split_ifs at h
      · exact ihl h
      · exact ihr h
      · cases h

/-- The slot a search ends at splits the values of the tree. -/
theorem descend_slot {cmp : α → Option Int} {t : RBTree α} {p : Path α}
    (h : descend cmp t [] = some (none, p)) : inorder t = before p ++ after p := by
  have := congrArg inorder (descend_plug h)
  simpa [before, after] using this.symm

/-- In a tree whose values compare with the key as `sgn` says, positive ones first, the
descent finds the value that compares equal, or ends at the slot between the two kinds. -/
theorem descend_sorted {cmp : α → Option Int} {sgn : α → Int} (t : RBTree α) (p : Path α)
    (hc : ∀ x ∈ inorder t, cmp x = some (sgn x))
    (hs : (inorder t).Pairwise (fun a b => 0 ≤ sgn b → 0 < sgn a)) :
    (∃ x p', descend cmp t p = some (some x, p') ∧ x ∈ inorder t ∧ sgn x = 0) ∨
    (∃ p' a b, descend cmp t p = some (none, p') ∧ inorder t = a ++ b ∧
      before p' = before p ++ a ∧ after p' = b ++ after p ∧
      (∀ x ∈ a, 0 < sgn x) ∧ ∀ x ∈ b, sgn x < 0) := by
  induction t generalizing p with
  | nil => exact .inr ⟨p, [], [], by simp [descend]⟩
  | node c l y r ihl ihr =>
      rw [inorder_node, List.pairwise_append, List.pairwise_cons] at hs
      obtain ⟨hsl, ⟨hyr, hsr⟩, hlr⟩ := hs
      have hcy : cmp y = some (sgn y) := hc y (by simp)
      have hcl : ∀ x ∈ inorder l, cmp x = some (sgn x) := fun x hx => hc x (by simp [hx])
      have hcr : ∀ x ∈ inorder r, cmp x = some (sgn x) := fun x hx => hc x (by simp [hx])
      simp only [descend, hcy, Option.bind_eq_bind, Option.bind_some]
      rcases lt_trichotomy (sgn y) 0 with hy | hy | hy
      · rw [if_pos hy]
        rcases ihl (.left c y r :: p) hcl hsl with ⟨x, p', h, hx, h0⟩ | ⟨p', a, b, h, e, hb, ha, hp, hn⟩
        · exact .inl ⟨x, p', h, by simp [hx], h0⟩
        · refine .inr ⟨p', a, b ++ y :: inorder r, h, by simp [e], hb, by simp [ha, after], hp, ?_⟩
          intro x hx
          rcases List.mem_append.mp hx with hx | hx
          · exact hn x hx
          · rcases List.mem_cons.mp hx with rfl | hx
            · exact hy
            · have := hyr x hx
              omega
      · rw [if_neg (by omega), if_neg (by omega)]
        exact .inl ⟨y, p, rfl, by simp, hy⟩
      · rw [if_neg (by omega), if_pos hy]
        rcases ihr (.right c l y :: p) hcr hsr with ⟨x, p', h, hx, h0⟩ | ⟨p', a, b, h, e, hb, ha, hp, hn⟩
        · exact .inl ⟨x, p', h, by simp [hx], h0⟩
        · refine .inr ⟨p', inorder l ++ y :: a, b, h, by simp [e], by simp [hb, before], ha, ?_, hn⟩
          intro x hx
          rcases List.mem_append.mp hx with hx | hx
          · exact hlr x hx y (by simp) hy.le
          · rcases List.mem_cons.mp hx with rfl | hx
            · exact hy
            · exact hp x hx

end RBTree

end HevTunnel
