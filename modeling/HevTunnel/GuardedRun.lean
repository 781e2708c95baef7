import Mathlib.Tactic.SplitIfs

/-! # Runs of events that have a condition

A system takes one event after the other.  `P s e` says that the event `e` can happen in the state `s`,
and `f s e` is the state after it, `none` if the event goes wrong.  `runs` is the state after a list of
events. -/

namespace HevTunnel

namespace GuardedRun

variable {σ ε : Type*} (P : σ → ε → Prop) [∀ s e, Decidable (P s e)] (f : σ → ε → Option σ)

/-- One event. -/
def step (s : σ) (e : ε) : Option σ := if P s e then f s e else none

/-- The state after some events. -/
def runs (s : σ) (es : List ε) : Option σ := es.foldlM (step P f) s

variable {P f} {s s' : σ} {e : ε} {es : List ε}

theorem runs_cons (h : runs P f s (e :: es) = some s') :
    ∃ s₁, P s e ∧ f s e = some s₁ ∧ runs P f s₁ es = some s' := by
  obtain ⟨s₁, hs₁, hes⟩ := Option.bind_eq_some_iff.mp h
  rw [step] at hs₁
  split_ifs at hs₁ with hp
  exact ⟨s₁, hp, hs₁, hes⟩

theorem runs_cons_of {s₁ : σ} (hp : P s e) (hs₁ : f s e = some s₁) :
    runs P f s (e :: es) = runs P f s₁ es := by
  rw [runs, List.foldlM_cons, step, if_pos hp, hs₁]
  rfl

/-- What holds in every state of a run holds in every state after its first event. -/
theorem forall_prefix_of_cons {s₁ : σ} {C : σ → Prop} (hp : P s e) (hs₁ : f s e = some s₁)
    (h : ∀ es₁ u, es₁ <+: e :: es → runs P f s es₁ = some u → C u) :
    ∀ es₁ u, es₁ <+: es → runs P f s₁ es₁ = some u → C u := fun es₁ u hpre hu =>
  h (e :: es₁) u (List.cons_prefix_cons.mpr ⟨rfl, hpre⟩) ((runs_cons_of hp hs₁).trans hu)

/-- What every event of a kind keeps holds after a run of such events. -/
theorem runs_invariant_of {I : σ → Prop} {K : ε → Prop}
    (hstep : ∀ s e s', I s → K e → P s e → f s e = some s' → I s') (h : I s) (hK : ∀ e ∈ es, K e)
    (hes : runs P f s es = some s') : I s' := by
  induction es generalizing s with
  | nil =>
      obtain rfl := Option.some_inj.mp hes
      exact h
  | cons e es ih =>
      obtain ⟨s₁, hp, hs₁, hes⟩ := runs_cons hes
      exact ih (hstep s e s₁ h (hK e List.mem_cons_self) hp hs₁)
        (fun e' he' => hK e' (List.mem_cons_of_mem _ he')) hes

/-- What every event keeps holds after a run. -/
theorem runs_invariant {I : σ → Prop} (hstep : ∀ s e s', I s → P s e → f s e = some s' → I s')
    (h : I s) (hes : runs P f s es = some s') : I s' :=
  runs_invariant_of (K := fun _ => True) (fun s e s' hs _ => hstep s e s' hs) h (fun _ _ => trivial) hes

/-- What every event keeps as long as `C` holds is so after a run with `C` in every state. -/
theorem runs_invariant_while {I C : σ → Prop}
    (hstep : ∀ s e s', I s → C s' → P s e → f s e = some s' → I s') (h : I s)
    (hC : ∀ es₁ u, es₁ <+: es → runs P f s es₁ = some u → C u) (hes : runs P f s es = some s') : I s' := by
  induction es generalizing s with
  | nil =>
      obtain rfl := Option.some_inj.mp hes
      exact h
  | cons e es ih =>
      obtain ⟨s₁, hp, hs₁, hes⟩ := runs_cons hes
      have hC₁ := forall_prefix_of_cons hp hs₁ hC
      exact ih (hstep s e s₁ h (hC₁ [] s₁ List.nil_prefix rfl) hp hs₁) hC₁ hes

/-- If every event of one system can happen in another, so can every run. -/
theorem runs_simulation {τ : Type*} {P' : τ → ε → Prop} [∀ t e, Decidable (P' t e)] {f' : τ → ε → Option τ}
    (R : σ → τ → Prop)
    (hstep : ∀ {s t e s'}, R s t → P s e → f s e = some s' → ∃ t', P' t e ∧ f' t e = some t' ∧ R s' t')
    {t : τ} (h : R s t) (hes : runs P f s es = some s') : ∃ t', runs P' f' t es = some t' ∧ R s' t' := by
  induction es generalizing s t with
  | nil =>
      obtain rfl := Option.some_inj.mp hes
      exact ⟨t, rfl, h⟩
  | cons e es ih =>
      obtain ⟨s₁, hp, hs₁, hes⟩ := runs_cons hes
      obtain ⟨t₁, hp', ht₁, h₁⟩ := hstep h hp hs₁
      obtain ⟨t', ht', h'⟩ := ih h₁ hes
      exact ⟨t', (runs_cons_of hp' ht₁).trans ht', h'⟩

end GuardedRun

end HevTunnel
