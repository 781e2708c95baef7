import Mathlib.Data.Option.Basic

/-! # Runs of a transition system

A system is given by a function `step` from a state and an event to the next state, `none` when the
event cannot happen in that state.  `runSteps` follows a list of events, and `runSteps_invariant` is
the induction rule for what holds in every state that can be reached; `runSteps_total` also says that
the run goes on.  `runSteps_simulation` is the rule for a system that follows another.

`EveryState` and `EveryStep` speak about all states and all steps of a run.  `everyState_iff` is the
rule for a property that some steps break: it holds in every state exactly if no step is one of
them. -/

namespace HevTunnel

variable {σ ε : Type*}

/-- The state after the events, if all of them can happen. -/
def runSteps (step : σ → ε → Option σ) : σ → List ε → Option σ
  | s, [] => some s
  | s, x :: xs => (step s x).bind (fun s' => runSteps step s' xs)

theorem runSteps_cons_eq_some {step : σ → ε → Option σ} {s s' : σ} {x : ε} {xs : List ε} :
    runSteps step s (x :: xs) = some s' ↔
      ∃ s₁, step s x = some s₁ ∧ runSteps step s₁ xs = some s' :=
  Option.bind_eq_some_iff

theorem runSteps_append (step : σ → ε → Option σ) (s : σ) (xs ys : List ε) :
    runSteps step s (xs ++ ys) = (runSteps step s xs).bind (fun s' => runSteps step s' ys) := by
  induction xs generalizing s with
  | nil => rfl
  | cons x xs ih =>
      simp only [List.cons_append, runSteps, Option.bind_assoc]
      exact congrArg _ (funext ih)

/-- What every step keeps holds along every run. -/
theorem runSteps_invariant {step : σ → ε → Option σ} (P : σ → Prop)
    (hstep : ∀ {s x s'}, P s → step s x = some s' → P s') {s s' : σ} {xs : List ε}
    (h : P s) (hs : runSteps step s xs = some s') : P s' := by
  induction xs generalizing s with
  | nil =>
      cases hs
      exact h
  | cons x xs ih =>
      obtain ⟨s₁, hs₁, hs⟩ := runSteps_cons_eq_some.mp hs
      exact ih (hstep h hs₁) hs

/-- If what every step keeps also makes every step possible, then every run is. -/
theorem runSteps_total {step : σ → ε → Option σ} (P : σ → Prop)
    (hstep : ∀ {s} x, P s → ∃ s', step s x = some s' ∧ P s') {s : σ} (h : P s) (xs : List ε) :
    ∃ s', runSteps step s xs = some s' ∧ P s' := by
  induction xs generalizing s with
  | nil => exact ⟨s, rfl, h⟩
  | cons x xs ih =>
      obtain ⟨s₁, hs₁, h₁⟩ := hstep x h
      obtain ⟨s', hs', h'⟩ := ih h₁
      exact ⟨s', runSteps_cons_eq_some.mpr ⟨s₁, hs₁, hs'⟩, h'⟩

/-- If every step of one system is a step of another, so is every run. -/
theorem runSteps_simulation {τ : Type*} {step : σ → ε → Option σ} {step' : τ → ε → Option τ}
    (R : σ → τ → Prop)
    (hstep : ∀ {s t x s'}, R s t → step s x = some s' → ∃ t', step' t x = some t' ∧ R s' t')
    {s s' : σ} {t : τ} {xs : List ε} (h : R s t) (hs : runSteps step s xs = some s') :
    ∃ t', runSteps step' t xs = some t' ∧ R s' t' := by
  induction xs generalizing s t with
  | nil =>
      cases hs
      exact ⟨t, rfl, h⟩
  | cons x xs ih =>
      obtain ⟨s₁, hs₁, hs⟩ := runSteps_cons_eq_some.mp hs
      obtain ⟨t₁, ht₁, h₁⟩ := hstep h hs₁
      obtain ⟨t', ht', h'⟩ := ih h₁ hs
      exact ⟨t', runSteps_cons_eq_some.mpr ⟨t₁, ht₁, ht'⟩, h'⟩

/-- `P` holds in every state that the run passes, the first one included. -/
def EveryState (step : σ → ε → Option σ) (P : σ → Prop) : σ → List ε → Prop
  | s, [] => P s
  | s, x :: xs => P s ∧ ∀ s', step s x = some s' → EveryState step P s' xs

/-- `Q` holds of every step of the run and the state before it. -/
def EveryStep (step : σ → ε → Option σ) (Q : σ → ε → Prop) : σ → List ε → Prop
  | _, [] => True
  | s, x :: xs => ∀ s', step s x = some s' → Q s x ∧ EveryStep step Q s' xs

theorem EveryState.head {step : σ → ε → Option σ} {P : σ → Prop} {s : σ} {xs : List ε}
    (h : EveryState step P s xs) : P s := by
  cases xs with
  | nil => exact h
  | cons x xs => exact h.1

theorem EveryStep.imp {step : σ → ε → Option σ} {Q Q' : σ → ε → Prop} (himp : ∀ {s x}, Q s x → Q' s x)
    {s : σ} {xs : List ε} (h : EveryStep step Q s xs) : EveryStep step Q' s xs := by
  induction xs generalizing s with
  | nil => trivial
  | cons x xs ih =>
      intro s' hs'
      obtain ⟨hx, h⟩ := h s' hs'
      exact ⟨himp hx, ih h⟩

/-- If an invariant implies `P`, and a step keeps the invariant unless it is bad and breaks `P`, then
`P` holds in every state exactly if no step is bad. -/
theorem everyState_iff {step : σ → ε → Option σ} {P : σ → Prop} {Bad : σ → ε → Prop} (Inv : σ → Prop)
    (hP : ∀ {s}, Inv s → P s)
    (hgood : ∀ {s x s'}, Inv s → step s x = some s' → ¬ Bad s x → Inv s')
    (hbad : ∀ {s x s'}, Inv s → step s x = some s' → Bad s x → ¬ P s') {s : σ} (hs : Inv s)
    (xs : List ε) : EveryState step P s xs ↔ EveryStep step (fun s x => ¬ Bad s x) s xs := by
  induction xs generalizing s with
  | nil => exact ⟨fun _ => trivial, fun _ => hP hs⟩
  | cons x xs ih =>
      constructor
      · rintro ⟨-, h⟩ s' hs'
        have hx : ¬ Bad s x := fun hx => hbad hs hs' hx (h s' hs').head
        exact ⟨hx, (ih (hgood hs hs' hx)).mp (h s' hs')⟩
      · intro h
        refine ⟨hP hs, ?_⟩
        intro s' hs'
        obtain ⟨hx, h⟩ := h s' hs'
        exact (ih (hgood hs hs' hx)).mpr h

end HevTunnel
