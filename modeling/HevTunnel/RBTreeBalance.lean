import HevTunnel.RBTree

/-! # Balance of the red-black tree

`Balanced t c n` states the two colour rules of `hev-rbtree.c` for a subtree whose root has
colour `c` and whose black height is `n`; `PathBalanced p c n` states what the frames of a
path ask of the subtree below them.  A red node below a path that expects a black one is
repaired by `insertColor` (`insertColor_balanced`), a subtree that is one black node short by
`eraseColor` (`eraseColor_balanced`).  Each of the two loops is followed frame by frame, and
no case of it dereferences `NULL`.

The two results the users of the tree need are `link_balanced` and `erase_balanced`: on a
balanced tree both operations succeed and the tree stays balanced. -/

namespace HevTunnel

namespace RBTree

variable {α : Type}

/-- `Balanced t c n`: the root of `t` has colour `c`, no red node has a red child, and every
way from the root of `t` to a `NULL` child passes `n` black nodes. -/
inductive Balanced : RBTree α → Color → ℕ → Prop
  | nil : Balanced .nil .black 0
  | red {l r : RBTree α} {n : ℕ} (x : α) :
      Balanced l .black n → Balanced r .black n → Balanced (.node .red l x r) .red n
  | black {l r : RBTree α} {cl cr : Color} {n : ℕ} (x : α) :
      Balanced l cl n → Balanced r cr n → Balanced (.node .black l x r) .black (n + 1)

/-- `PathBalanced p c n`: a subtree of black height `n` fits at `p` if it is black, or if `c`
is red. -/
inductive PathBalanced : Path α → Color → ℕ → Prop
  | root {n : ℕ} : PathBalanced [] .black n
  | redLeft {p : Path α} {r : RBTree α} {n : ℕ} (x : α) :
      Balanced r .black n → PathBalanced p .red n → PathBalanced (.left .red x r :: p) .black n
  | redRight {p : Path α} {l : RBTree α} {n : ℕ} (x : α) :
      Balanced l .black n → PathBalanced p .red n → PathBalanced (.right .red l x :: p) .black n
  | blackLeft {p : Path α} {r : RBTree α} {c cr : Color} {n : ℕ} (x : α) :
      Balanced r cr n → PathBalanced p c (n + 1) → PathBalanced (.left .black x r :: p) .red n
  | blackRight {p : Path α} {l : RBTree α} {c cl : Color} {n : ℕ} (x : α) :
      Balanced l cl n → PathBalanced p c (n + 1) → PathBalanced (.right .black l x :: p) .red n

/-- The balance of a whole tree: the root is black. -/
def IsBalanced (t : RBTree α) : Prop := ∃ n, Balanced t .black n

theorem Balanced.rootColor_eq {t : RBTree α} {c : Color} {n : ℕ} (h : Balanced t c n) :
    t.rootColor = c := by cases h <;> rfl

theorem PathBalanced.plug {p : Path α} {c ct : Color} {n : ℕ} {t : RBTree α}
    (hp : PathBalanced p c n) (ht : Balanced t ct n) (hc : ct = .red → c = .red) :
    IsBalanced (plug t p) := by
  induction hp generalizing t ct with
  | @root n =>
      cases ct with
      | red => simp at hc
      | black => exact ⟨n, ht⟩
  | redLeft x hr _ ih =>
      cases ct with
      | red => simp at hc
      | black => exact ih (.red x ht hr) (by simp)
  | redRight x hl _ ih =>
      cases ct with
      | red => simp at hc
      | black => exact ih (.red x hl ht) (by simp)
  | blackLeft x hr _ ih => exact ih (.black x ht hr) (by simp)
  | blackRight x hl _ ih => exact ih (.black x hl ht) (by simp)

theorem PathBalanced.plug_black {p : Path α} {c : Color} {n : ℕ} {t : RBTree α}
    (hp : PathBalanced p c n) (ht : Balanced t .black n) : IsBalanced (RBTree.plug t p) :=
  hp.plug ht (by simp)

/-- A red subtree becomes a black one that is one black node higher. -/
theorem Balanced.blacken_red {t : RBTree α} {n : ℕ} (h : Balanced t .red n) :
    Balanced (blacken t) .black (n + 1) := by
  cases h with
  | red x hl hr => exact .black x hl hr

theorem Balanced.blacken_black {t : RBTree α} {n : ℕ} (h : Balanced t .black n) :
    blacken t = t := by cases h <;> rfl

/-- The red node `t` below the red frame `f`, rotated into the place of the grandparent. -/
theorem insertRotateLeft_balanced {t : RBTree α} {f : Frame α} {g : α} {u : RBTree α} {n : ℕ}
    {p : Path α} (ht : Balanced t .red n) (hf : PathBalanced (f :: p) .black n)
    (hu : Balanced u .black n) :
    ∃ t', insertRotateLeft t f .black g u = some t' ∧ Balanced t' .black (n + 1) := by
  cases ht with
  | red x hl hr =>
      cases hf with
      | redLeft px hpr _ =>
          refine ⟨_, rfl, ?_⟩
          rw [hpr.blacken_black]
          exact .black _ (.red x hl hr) (.red g hpr hu)
      | redRight px hpl _ =>
          refine ⟨_, rfl, ?_⟩
          rw [hl.blacken_black, hr.blacken_black]
          exact .black _ (.red px hpl hl) (.red g hr hu)

theorem insertRotateRight_balanced {t : RBTree α} {f : Frame α} {g : α} {u : RBTree α} {n : ℕ}
    {p : Path α} (ht : Balanced t .red n) (hf : PathBalanced (f :: p) .black n)
    (hu : Balanced u .black n) :
    ∃ t', insertRotateRight t f .black g u = some t' ∧ Balanced t' .black (n + 1) := by
  cases ht with
  | red x hl hr =>
      cases hf with
      | redLeft px hpr _ =>
          refine ⟨_, rfl, ?_⟩
          rw [hl.blacken_black, hr.blacken_black]
          exact .black _ (.red g hu hl) (.red px hr hpr)
      | redRight px hpl _ =>
          refine ⟨_, rfl, ?_⟩
          rw [hpl.blacken_black]
          exact .black _ (.red g hu hpl) (.red x hl hr)

/-- The red node `t` closed under its red parent becomes, once the parent is black, one black
node higher. -/
theorem blacken_close_balanced {t : RBTree α} {f : Frame α} {n : ℕ} {p : Path α}
    (ht : Balanced t .red n) (hf : PathBalanced (f :: p) .black n) :
    Balanced (blacken (f.close t)) .black (n + 1) := by
  cases hf with
  | redLeft px hpr _ => exact .black px ht hpr
  | redRight px hpl _ => exact .black px hpl ht

theorem PathBalanced.frame_color {f : Frame α} {p : Path α} {c : Color} {n : ℕ}
    (h : PathBalanced (f :: p) c n) : (f.color = .black ↔ c = .red) := by
  cases h <;> simp [Frame.color]

theorem PathBalanced.tail_red {f : Frame α} {p : Path α} {n : ℕ}
    (h : PathBalanced (f :: p) .black n) : PathBalanced p .red n := by
  cases h <;> assumption

/-- Insertion meets no `NULL` on a balanced tree and leaves it balanced. -/
theorem insertColor_balanced : ∀ {t : RBTree α} {p : Path α} {c : Color} {n : ℕ},
    Balanced t .red n → PathBalanced p c n → ∃ t', insertColor t p = some t' ∧ IsBalanced t'
  | t, [], c, n, ht, hp => ⟨_, rfl, n + 1, ht.blacken_red⟩
  | t, [f], c, n, ht, hp => by
      cases c with
      | red =>
          refine ⟨f.close t, by simp [insertColor, hp.frame_color], ?_⟩
          have := hp.plug ht (fun _ => rfl)
          cases f <;> exact this
      | black => cases hp.tail_red
  | t, f :: .left cg g u :: p, c, n, ht, hp => by
      cases c with
      | red =>
          refine ⟨plug t (f :: .left cg g u :: p), ?_, hp.plug ht (fun _ => rfl)⟩
          simp only [insertColor, hp.frame_color.mpr rfl, if_true]
      | black =>
          have hf : ¬ f.color = .black := by simp [hp.frame_color]
          simp only [insertColor, hf, if_false]
          cases hp.tail_red with
          | @blackLeft _ _ c' cu _ _ hu hp' =>
              cases cu with
              | red =>
                  rw [if_pos hu.rootColor_eq]
                  exact insertColor_balanced (.red g (blacken_close_balanced ht hp) hu.blacken_red) hp'
              | black =>
                  rw [if_neg (by simp [hu.rootColor_eq])]
                  obtain ⟨t', h, hb⟩ := insertRotateLeft_balanced (g := g) ht hp hu
                  exact ⟨plug t' p, by simp [h], hp'.plug_black hb⟩
  | t, f :: .right cg u g :: p, c, n, ht, hp => by
      cases c with
      | red =>
          refine ⟨plug t (f :: .right cg u g :: p), ?_, hp.plug ht (fun _ => rfl)⟩
          simp only [insertColor, hp.frame_color.mpr rfl, if_true]
      | black =>
          have hf : ¬ f.color = .black := by simp [hp.frame_color]
          simp only [insertColor, hf, if_false]
          cases hp.tail_red with
          | @blackRight _ _ c' cu _ _ hu hp' =>
              cases cu with
              | red =>
                  rw [if_pos hu.rootColor_eq]
                  exact insertColor_balanced (.red g hu.blacken_red (blacken_close_balanced ht hp)) hp'
              | black =>
                  rw [if_neg (by simp [hu.rootColor_eq])]
                  obtain ⟨t', h, hb⟩ := insertRotateRight_balanced (g := g) ht hp hu
                  exact ⟨plug t' p, by simp [h], hp'.plug_black hb⟩

/-- What a round of the erase loop makes of a parent of colour `cp` above a deficient child of
black height `n`. -/
def Fix.Repairs (n : ℕ) : Color → Fix α → Prop
  | .red, x => ∃ u cu, x = .done u ∧ Balanced u cu (n + 1)
  | .black, x => (∃ u, x = .done u ∧ Balanced u .black (n + 2)) ∨
      ∃ u, x = .up u ∧ Balanced u .black (n + 1)

theorem fixLeft_balanced {t s : RBTree α} {n : ℕ} (cp : Color) (px : α)
    (ht : Balanced t .black n) (hs : Balanced s .black (n + 1)) :
    ∃ x, fixLeft t cp px s = some x ∧ x.Repairs n cp := by
  cases hs with
  | @black sl sr cl cr _ sx hl hr =>
      cases cr with
      | red =>
          simp only [fixLeft, hr.rootColor_eq]
          refine ⟨_, rfl, ?_⟩
          have hu := Balanced.black px ht hl
          cases cp with
          | red => exact ⟨_, _, rfl, .red sx hu hr.blacken_red⟩
          | black => exact .inl ⟨_, rfl, .black sx hu hr.blacken_red⟩
      | black =>
          cases hl with
          | @red a b _ y ha hb =>
              simp only [fixLeft, hr.rootColor_eq]
              refine ⟨_, rfl, ?_⟩
              have hu := Balanced.black px ht ha
              have hv := Balanced.black sx hb hr
              rw [← hb.blacken_black] at hv
              cases cp with
              | red => exact ⟨_, _, rfl, .red y hu hv⟩
              | black => exact .inl ⟨_, rfl, .black y hu hv⟩
          | nil =>
              have hv := Balanced.black px ht (.red sx .nil hr)
              cases cp with
              | red => exact ⟨_, by simp only [fixLeft, hr.rootColor_eq], _, _, rfl, hv⟩
              | black => exact ⟨_, by simp only [fixLeft, hr.rootColor_eq], .inr ⟨_, rfl, hv⟩⟩
          | black y ha hb =>
              have hv := Balanced.black px ht (.red sx (.black y ha hb) hr)
              cases cp with
              | red => exact ⟨_, by simp only [fixLeft, hr.rootColor_eq], _, _, rfl, hv⟩
              | black => exact ⟨_, by simp only [fixLeft, hr.rootColor_eq], .inr ⟨_, rfl, hv⟩⟩

theorem fixRight_balanced {t s : RBTree α} {n : ℕ} (cp : Color) (px : α)
    (ht : Balanced t .black n) (hs : Balanced s .black (n + 1)) :
    ∃ x, fixRight t cp px s = some x ∧ x.Repairs n cp := by
  cases hs with
  | @black sl sr cl cr _ sx hl hr =>
      cases cl with
      | red =>
          simp only [fixRight, hl.rootColor_eq]
          refine ⟨_, rfl, ?_⟩
          have hu := Balanced.black px hr ht
          cases cp with
          | red => exact ⟨_, _, rfl, .red sx hl.blacken_red hu⟩
          | black => exact .inl ⟨_, rfl, .black sx hl.blacken_red hu⟩
      | black =>
          cases hr with
          | @red a b _ y ha hb =>
              simp only [fixRight, hl.rootColor_eq]
              refine ⟨_, rfl, ?_⟩
              have hu := Balanced.black px hb ht
              have hv := Balanced.black sx hl ha
              rw [← ha.blacken_black] at hv
              cases cp with
              | red => exact ⟨_, _, rfl, .red y hv hu⟩
              | black => exact .inl ⟨_, rfl, .black y hv hu⟩
          | nil =>
              have hv := Balanced.black px (.red sx hl .nil) ht
              cases cp with
              | red => exact ⟨_, by simp only [fixRight, hl.rootColor_eq], _, _, rfl, hv⟩
              | black => exact ⟨_, by simp only [fixRight, hl.rootColor_eq], .inr ⟨_, rfl, hv⟩⟩
          | black y ha hb =>
              have hv := Balanced.black px (.red sx hl (.black y ha hb)) ht
              cases cp with
              | red => exact ⟨_, by simp only [fixRight, hl.rootColor_eq], _, _, rfl, hv⟩
              | black => exact ⟨_, by simp only [fixRight, hl.rootColor_eq], .inr ⟨_, rfl, hv⟩⟩

/-- A round of the erase loop ends it with a balanced tree or passes the deficit on. -/
theorem eraseRound_balanced {t : RBTree α} {f : Frame α} {p : Path α} {c : Color} {n : ℕ}
    (ht : Balanced t .black n) (hp : PathBalanced (f :: p) c (n + 1)) :
    ∃ x, eraseRound t f = some x ∧ ((∃ u, x = .done u ∧ IsBalanced (plug u p)) ∨
      ∃ u c', x = .up u ∧ Balanced u .black (n + 1) ∧ PathBalanced p c' (n + 2)) := by
  cases hp with
  | @redLeft _ s _ px hs hp =>
      obtain ⟨x, hx, u, cu, rfl, hu⟩ := fixLeft_balanced .red px ht hs
      refine ⟨_, ?_, .inl ⟨u, rfl, hp.plug hu (fun _ => rfl)⟩⟩
      cases hs with
      | black sx hl hr => exact hx
  | @redRight _ s _ px hs hp =>
      obtain ⟨x, hx, u, cu, rfl, hu⟩ := fixRight_balanced .red px ht hs
      refine ⟨_, ?_, .inl ⟨u, rfl, hp.plug hu (fun _ => rfl)⟩⟩
      cases hs with
      | black sx hl hr => exact hx
  | @blackLeft _ s c' cs _ px hs hp =>
      cases hs with
      | @red sl sr _ sx hl hr =>
          obtain ⟨x, hx, u, cu, rfl, hu⟩ := fixLeft_balanced .red px ht hl
          rw [← hl.blacken_black] at hx
          exact ⟨_, by simp only [eraseRound, hx], .inl ⟨_, rfl, hp.plug_black (.black sx hu hr)⟩⟩
      | black sx hl hr =>
          obtain ⟨x, hx, ⟨u, rfl, hu⟩ | ⟨u, rfl, hu⟩⟩ :=
            fixLeft_balanced .black px ht (.black sx hl hr)
          · exact ⟨_, hx, .inl ⟨u, rfl, hp.plug_black hu⟩⟩
          · exact ⟨_, hx, .inr ⟨u, c', rfl, hu, hp⟩⟩
  | @blackRight _ s c' cs _ px hs hp =>
      cases hs with
      | @red sl sr _ sx hl hr =>
          obtain ⟨x, hx, u, cu, rfl, hu⟩ := fixRight_balanced .red px ht hr
          rw [← hr.blacken_black] at hx
          exact ⟨_, by simp only [eraseRound, hx], .inl ⟨_, rfl, hp.plug_black (.black sx hl hu)⟩⟩
      | black sx hl hr =>
          obtain ⟨x, hx, ⟨u, rfl, hu⟩ | ⟨u, rfl, hu⟩⟩ :=
            fixRight_balanced .black px ht (.black sx hl hr)
          · exact ⟨_, hx, .inl ⟨u, rfl, hp.plug_black hu⟩⟩
          · exact ⟨_, hx, .inr ⟨u, c', rfl, hu, hp⟩⟩

/-- The erase loop meets no `NULL` sibling on a balanced tree and leaves it balanced. -/
theorem eraseColor_balanced {t : RBTree α} {p : Path α} {c : Color} {n : ℕ}
    (ht : Balanced t .black n) (hp : PathBalanced p c (n + 1)) :
    ∃ t', eraseColor t p = some t' ∧ IsBalanced t' := by
  induction p generalizing t c n with
  | nil => exact ⟨t, rfl, n, ht⟩
  | cons f p ih =>
      obtain ⟨x, hx, ⟨u, rfl, hu⟩ | ⟨u, c', rfl, hu, hp'⟩⟩ := eraseRound_balanced ht hp
      · exact ⟨plug u p, by simp only [eraseColor, hx], hu⟩
      · obtain ⟨t', h, hb⟩ := ih hu hp'
        exact ⟨t', by simp only [eraseColor, hx, h], hb⟩

/-- A subtree of black height `0` that is not `NULL` is a single red node. -/
theorem Balanced.red_of_zero {t : RBTree α} {c : Color} (h : Balanced t c 0) (ht : t ≠ .nil) :
    c = .red := by
  cases h with
  | nil => exact absurd rfl ht
  | red _ _ _ => rfl

theorem leftmost_balanced {c c₀ : Color} {l : RBTree α} {x : α} {r : RBTree α} {n : ℕ}
    {acc p : Path α} (ht : Balanced (.node c l x r) c n) (hp : PathBalanced (acc ++ p) c₀ n)
    (hc : c = .red → c₀ = .red) :
    ∃ m c₁, Balanced (.node (leftmost c l x r acc).1 .nil (leftmost c l x r acc).2.1
        (leftmost c l x r acc).2.2.1) (leftmost c l x r acc).1 m ∧
      PathBalanced ((leftmost c l x r acc).2.2.2 ++ p) c₁ m ∧
      ((leftmost c l x r acc).1 = .red → c₁ = .red) := by
  induction l generalizing c c₀ x r n acc with
  | nil => exact ⟨n, c₀, ht, hp, hc⟩
  | node c' l' x' r' ihl _ =>
      rw [leftmost]
      cases ht with
      | red _ hl hr =>
          obtain rfl := hc rfl
          have hc' : c' = .black := hl.rootColor_eq
          subst hc'
          exact ihl hl (.redLeft x hr hp) (by simp)
      | black _ hl hr =>
          have hc' := hl.rootColor_eq
          simp only [rootColor] at hc'
          subst hc'
          exact ihl hl (.blackLeft x hr hp) (fun _ => rfl)

theorem eraseSuccessor_balanced {c : Color} {l : RBTree α} {p : Path α}
    {m : Color × α × RBTree α × Path α} {n : ℕ} {c₁ : Color}
    (hm : Balanced (.node m.1 .nil m.2.1 m.2.2.1) m.1 n)
    (hq : PathBalanced (m.2.2.2 ++ .right c l m.2.1 :: p) c₁ n) :
    ∃ t', eraseSuccessor c l p m = some t' ∧ IsBalanced t' := by
  obtain ⟨cs, s, child2, q⟩ := m
  cases child2 with
  | nil =>
      cases hm with
      | red _ hl _ => cases hl; exact ⟨_, rfl, hq.plug_black .nil⟩
      | black _ hl _ => cases hl; exact eraseColor_balanced .nil hq
  | node c' l' x' r' =>
      refine ⟨_, rfl, ?_⟩
      cases hm with
      | red _ hl hr =>
          cases hl
          exact absurd (hr.red_of_zero (by simp)) (by simp)
      | black _ hl hr =>
          cases hl
          obtain rfl := hr.red_of_zero (by simp)
          exact hq.plug_black hr.blacken_red

/-- Erasing a node of a balanced tree meets no `NULL` and leaves the tree balanced. -/
theorem eraseNode_balanced {c c₀ : Color} {l : RBTree α} {x : α} {r : RBTree α} {p : Path α}
    {n : ℕ} (ht : Balanced (.node c l x r) c n) (hp : PathBalanced p c₀ n)
    (hc : c = .red → c₀ = .red) : ∃ t', eraseNode c l r p = some t' ∧ IsBalanced t' := by
  cases l with
  | nil =>
      cases r with
      | nil =>
          cases ht with
          | red _ hl _ => cases hl; exact ⟨_, rfl, hp.plug_black .nil⟩
          | black _ hl _ => cases hl; exact eraseColor_balanced .nil hp
      | node cr rl rx rr =>
          refine ⟨_, rfl, ?_⟩
          cases ht with
          | red _ hl hr =>
              cases hl
              exact absurd (hr.red_of_zero (by simp)) (by simp)
          | black _ hl hr =>
              cases hl
              obtain rfl := hr.red_of_zero (by simp)
              exact hp.plug_black hr.blacken_red
  | node cl ll lx lr =>
      cases r with
      | nil =>
          refine ⟨_, rfl, ?_⟩
          cases ht with
          | red _ hl hr =>
              cases hr
              exact absurd (hl.red_of_zero (by simp)) (by simp)
          | black _ hl hr =>
              cases hr
              obtain rfl := hl.red_of_zero (by simp)
              exact hp.plug_black hl.blacken_red
      | node cr rl rx rr =>
          have key : ∀ s : α, ∃ m c₁, PathBalanced (.right c (.node cl ll lx lr) s :: p) c₁ m ∧
              Balanced (.node cr rl rx rr) cr m ∧ (cr = .red → c₁ = .red) := by
            intro s
            cases ht with
            | red _ hl hr =>
                obtain rfl := hc rfl
                have hcr : cr = .black := hr.rootColor_eq
                subst hcr
                exact ⟨_, _, .redRight s hl hp, hr, by simp⟩
            | black _ hl hr =>
                have hcr := hr.rootColor_eq
                simp only [rootColor] at hcr
                subst hcr
                exact ⟨_, _, .blackRight s hl hp, hr, fun _ => rfl⟩
          obtain ⟨m, c₁, hq, hr, hcr⟩ := key (leftmost cr rl rx rr []).2.1
          obtain ⟨m', c₂, hs, hq', -⟩ := leftmost_balanced hr (show PathBalanced ([] ++ _) _ _ from hq) hcr
          exact eraseSuccessor_balanced hs hq'

theorem descend_balanced {cmp : α → Option Int} {t : RBTree α} {p p' : Path α} {c ct : Color}
    {n : ℕ} (ht : Balanced t ct n) (hp : PathBalanced p c n) (hc : ct = .red → c = .red)
    (h : descend cmp t p = some (none, p')) : ∃ c', PathBalanced p' c' 0 := by
  induction ht generalizing p c with
  | nil =>
      simp only [descend, Option.some.injEq, Prod.mk.injEq] at h
      obtain ⟨-, rfl⟩ := h
      exact ⟨c, hp⟩
  | red x hl hr ihl ihr =>
      obtain rfl := hc rfl
      simp only [descend, Option.bind_eq_bind, Option.bind_eq_some_iff] at h
      obtain ⟨res, -, h⟩ := h
      split_ifs at h
      · exact ihl (.redLeft x hr hp) (by simp) h
      · exact ihr (.redRight x hl hp) (by simp) h
      · cases h
  | black x hl hr ihl ihr =>
      simp only [descend, Option.bind_eq_bind, Option.bind_eq_some_iff] at h
      obtain ⟨res, -, h⟩ := h
      split_ifs at h
      · exact ihl (.blackLeft x hr hp) (fun _ => rfl) h
      · exact ihr (.blackRight x hl hp) (fun _ => rfl) h
      · cases h

theorem locate_balanced {q : α → Bool} {t : RBTree α} {p p' : Path α} {c ct c' : Color}
    {l r : RBTree α} {x : α} {n : ℕ} (ht : Balanced t ct n) (hp : PathBalanced p c n)
    (hc : ct = .red → c = .red) (h : locate q t p = some (c', l, x, r, p')) :
    ∃ m c₁, Balanced (.node c' l x r) c' m ∧ PathBalanced p' c₁ m ∧ (c' = .red → c₁ = .red) := by
  induction ht generalizing p c with
  | nil => simp [locate] at h
  | red y hl hr ihl ihr =>
      rw [locate] at h
      split_ifs at h
      · simp only [Option.some.injEq, Prod.mk.injEq] at h
        obtain ⟨rfl, rfl, rfl, rfl, rfl⟩ := h
        exact ⟨_, c, .red y hl hr, hp, hc⟩
      · obtain rfl := hc rfl
        rcases Option.or_eq_some_iff.mp h with h | ⟨-, h⟩
        · exact ihl (.redLeft y hr hp) (by simp) h
        · exact ihr (.redRight y hl hp) (by simp) h
  | black y hl hr ihl ihr =>
      rw [locate] at h
      split_ifs at h
      · simp only [Option.some.injEq, Prod.mk.injEq] at h
        obtain ⟨rfl, rfl, rfl, rfl, rfl⟩ := h
        exact ⟨_, c, .black y hl hr, hp, by simp⟩
      · rcases Option.or_eq_some_iff.mp h with h | ⟨-, h⟩
        · exact ihl (.blackLeft y hr hp) (fun _ => rfl) h
        · exact ihr (.blackRight y hl hp) (fun _ => rfl) h

/-- Linking a new node at the slot where a descent ended succeeds and keeps the balance. -/
theorem link_balanced {cmp : α → Option Int} {t : RBTree α} {p : Path α} (x : α)
    (ht : IsBalanced t) (h : descend cmp t [] = some (none, p)) :
    ∃ t', link x p = some t' ∧ IsBalanced t' := by
  obtain ⟨n, ht⟩ := ht
  obtain ⟨c, hp⟩ := descend_balanced ht .root (by simp) h
  exact insertColor_balanced (.red x .nil .nil) hp

/-- Erasing a member succeeds and keeps the balance. -/
theorem erase_balanced {q : α → Bool} {t : RBTree α} (ht : IsBalanced t)
    (hq : ∃ x ∈ inorder t, q x = true) : ∃ t', erase q t = some t' ∧ IsBalanced t' := by
  obtain ⟨n, ht⟩ := ht
  obtain ⟨⟨c, l, x, r, p⟩, hl⟩ := Option.isSome_iff_exists.mp (locate_isSome t [] hq)
  obtain ⟨m, c₁, hb, hp, hc⟩ := locate_balanced ht .root (by simp) hl
  obtain ⟨t', h, hb'⟩ := eraseNode_balanced hb hp hc
  exact ⟨t', by simp [erase, hl, h], hb'⟩

theorem isBalanced_nil : IsBalanced (nil : RBTree α) := ⟨0, .nil⟩

end RBTree

end HevTunnel
