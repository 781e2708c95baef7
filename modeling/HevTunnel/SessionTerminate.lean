import HevTunnel.SessionTask

/-! # The termination of a session

`hev_socks5_session_terminate` leaves its request in `self->timeout` only.  `Kept` says that it has
not been lost so far.

* `connect` and `handshake` store their own timeouts over it, and a session that still moves data
  yields with `HEV_TASK_YIELD`, which does not look at the timeout (`Undoes`).
* `Inv` is what holds as long as this has not happened; every step that does not undo the request
  keeps it.
* `everyState_kept_iff`: the request is kept all along a run exactly if no step undoes it. -/

namespace HevTunnel

open Prog

namespace SessionTask

/-! ### The property -/

/-- The request to terminate has not been lost: unless the task has ended, the timeout is 0; no wait
for I/O that began after the request was successful, and nothing has been relayed after the first
yield that followed it. -/
def Kept (s : SessionTask) : Prop :=
  ∀ g, s.since = some g →
    (s.point.isEnded = false → s.timeout = 0) ∧ g.passed = false ∧ g.relayed = false

/-- A step that stores a timeout of the configuration, other than 0, in a task that goes on: at the
start of `hev_socks5_client_connect`, and at the start and, in a UDP session, at the successful end of
`hev_socks5_client_handshake`. -/
def Stores (c : Session) : Point → Step → Prop
  | .start, .run .ok _ => c.connectTimeout ≠ 0
  | .connect, .run .ok _ => c.tcpTimeout ≠ 0
  | .handshake (.ret r) _, .run .ok _ => 0 ≤ r ∧ c.type ≠ .tcp ∧ c.udpTimeout ≠ 0
  | _, _ => False

/-- A step in which a splice function moves data. -/
def MovesData : Point → Step → Prop
  | .forward _ _ _ _, .run (.spliced r) _ => r.relays = true
  | .forward _ _ _ _, .run (.block moved) _ => moved = true
  | .backward _ _ _, .run (.spliced r) _ => r.relays = true
  | _, _ => False

/-- After a request to terminate, a step that overwrites the timeout, or that moves data in a session
that has gone on after a yield: after a `HEV_TASK_YIELD`, or after a failed wait in a write of the
handshake that has written something or in a splice function. -/
def Undoes (c : Session) (s : SessionTask) (x : Step) : Prop :=
  ∃ g, s.since = some g ∧ (Stores c s.point x ∨ (g.survived = true ∧ MovesData s.point x))

end SessionTask

/-! ### The invariant -/

namespace Point

/-- Points from which a task only goes to its end. -/
def Stopping : Point → Prop
  | handshake (.ret r) _ => r = -1
  | drain => True
  | ended => True
  | _ => False

/-- Points where the yielder is called. -/
def CanWait : Point → Prop
  | connect => True
  | handshake (.recv _ _) _ => True
  | handshake (.send _ _) _ => True
  | forward _ _ _ _ => True
  | backward _ _ _ => True
  | round _ _ => True
  | drain => True
  | _ => False

/-- What is left of a handshake at this point gives up when a call fails. -/
def GivesUp : Point → Prop
  | handshake p _ => p.FailsWith (-1)
  | _ => True

theorem givesUp_failed {p : Point} (type : SocksType) (h : p.GivesUp) : (p.failed type).GivesUp := by
  cases p with
  | handshake q wrote =>
      cases q with
      | ret r => exact h
      | recv n k =>
          show FailsWith (-1) (k none)
          rw [h.1]
          exact trivial
      | send bs k =>
          cases wrote with
          | true => exact h.2
          | false =>
              show FailsWith (-1) (k false)
              rw [h.1]
              exact trivial
      | act a k => exact h
  | round resF resB =>
      unfold failed afterLoop
      split_ifs <;> exact trivial
  | _ => exact trivial

theorem givesUp_passed {p : Point} (h : p.GivesUp) : p.passed.GivesUp := by
  cases p with
  | round resF resB => exact trivial
  | _ => exact h

theorem isEnded_failed {p : Point} {type : SocksType} (h : (p.failed type).isEnded = false) :
    p.isEnded = false := by
  cases p with
  | ended => exact h
  | _ => rfl

theorem isEnded_passed {p : Point} (h : p.passed.isEnded = false) : p.isEnded = false := by
  cases p with
  | ended => exact h
  | _ => rfl

theorem Stopping.passed {p : Point} (h : p.Stopping) : p.passed.Stopping := by
  cases p with
  | round resF resB => exact h.elim
  | _ => exact h

theorem CanWait.isEnded {p : Point} (h : p.CanWait) : p.isEnded = false := by
  cases p with
  | ended => exact h.elim
  | _ => rfl

/-- A failed wait that the task does not survive stops it. -/
theorem CanWait.stopping {p : Point} {type : SocksType} (h : p.CanWait) (hp : p.GivesUp)
    (hsurv : p.survives = false) : (p.failed type).Stopping := by
  cases p with
  | handshake q wrote =>
      cases q with
      | ret r => exact h.elim
      | recv n k =>
          show Stopping (handshake (k none) false)
          rw [hp.1]
          exact rfl
      | send bs k =>
          obtain rfl : wrote = false := hsurv
          show Stopping (handshake (k false) false)
          rw [hp.1]
          exact rfl
      | act a k => exact h.elim
  | round resF resB =>
      unfold failed afterLoop
      split_ifs <;> exact trivial
  | connect => exact trivial
  | drain => exact trivial
  | forward resF resB sent failed => cases hsurv
  | backward resF resB failed => cases hsurv
  | start => exact h.elim
  | resolve => exact h.elim
  | ended => exact trivial

end Point

namespace SessionTask

/-- What holds in a task as long as the request `g` to terminate has not been lost.  A session that
has yielded since, and has not survived this, stops or is inside its `HEV_TASK_YIELD`. -/
structure Held (s : SessionTask) (g : Since) : Prop where
  timeout : s.point.isEnded = false → s.timeout = 0
  passed : g.passed = false
  relayed : g.relayed = false
  yielded : g.survived = true → g.yielded = true
  pause : g.yielded = true → ∀ p, s.pause = some p → p = .yield ∨ p = .other
  stopping : g.yielded = true → g.survived = true ∨ s.pause = some .yield ∨ s.point.Stopping

structure Inv (s : SessionTask) : Prop where
  givesUp : s.point.GivesUp
  held : ∀ g, s.since = some g → s.Held g

theorem init_inv : init.Inv where
  givesUp := trivial
  held := by
    intro g hg
    cases hg

theorem Inv.kept {s : SessionTask} (h : s.Inv) : s.Kept := by
  intro g hg
  have hheld := h.held g hg
  exact ⟨hheld.timeout, hheld.passed, hheld.relayed⟩

theorem since_map {s : SessionTask} {f : Since → Since} {g : Since} (h : s.since.map f = some g) :
    ∃ g₀, s.since = some g₀ ∧ f g₀ = g :=
  Option.map_eq_some_iff.mp h

namespace Inv
variable {s : SessionTask} (h : s.Inv)
include h

/-- A running task that has yielded since the request has survived it, unless it stops. -/
theorem survived {g : Since} (hg : s.since = some g) (hpause : s.pause = none)
    (hpoint : ¬ s.point.Stopping) (hy : g.yielded = true) : g.survived = true := by
  obtain hsurv | hyield | hstop := (h.held g hg).stopping hy
  · exact hsurv
  · rw [hpause] at hyield
    cases hyield
  · exact absurd hstop hpoint

theorem task (t : TaskState) : Inv { s with task := t } where
  givesUp := h.givesUp
  held := by
    intro g hg
    obtain ⟨htimeout, hpassed, hrelayed, hyielded, hpause, hstop⟩ := h.held g hg
    exact ⟨htimeout, hpassed, hrelayed, hyielded, hpause, hstop⟩

/-- The task runs to another point, and may store a timeout. -/
theorem move (hpause : s.pause = none) {p : Point} {v : Int} (hp : p.GivesUp)
    (hv : s.since ≠ none → p.isEnded = false → v = 0) (hstop : s.point.Stopping → p.Stopping) :
    Inv { s with point := p, timeout := v } where
  givesUp := hp
  held := by
    intro g hg
    have hheld := h.held g hg
    refine ⟨?_, hheld.passed, hheld.relayed, hheld.yielded, hheld.pause, ?_⟩
    · apply hv
      intro hnone
      rw [hnone] at hg
      cases hg
    · intro hy
      by_cases hpoint : s.point.Stopping
      · exact .inr (.inr (hstop hpoint))
      · exact .inl (h.survived hg hpause hpoint hy)

theorem goto (hpause : s.pause = none) {p : Point} (hp : p.GivesUp) (hended : s.point.isEnded = false)
    (hstop : s.point.Stopping → p.Stopping) : Inv { s with point := p } := by
  refine h.move hpause hp ?_ hstop
  intro hsince _
  obtain ⟨g, hg⟩ := Option.ne_none_iff_exists'.mp hsince
  exact (h.held g hg).timeout hended

theorem relay {moved : Bool} (hm : ∀ g, s.since = some g → g.yielded = true → moved = false) :
    (s.relay moved).Inv where
  givesUp := h.givesUp
  held := by
    intro g hg
    obtain ⟨g₀, hg₀, rfl⟩ := since_map hg
    obtain ⟨htimeout, hpassed, hrelayed, hyielded, hpause, hstop⟩ := h.held g₀ hg₀
    refine ⟨htimeout, hpassed, ?_, hyielded, hpause, hstop⟩
    cases hy : g₀.yielded with
    | false => simp [hrelayed]
    | true => simp [hrelayed, hm g₀ hg₀ hy]

/-- A wait outside the yielder. -/
theorem stop_other (hpause : s.pause = none) : (s.stop .other).Inv where
  givesUp := h.givesUp
  held := by
    intro g hg
    have hheld := h.held g hg
    refine ⟨hheld.timeout, hheld.passed, hheld.relayed, hheld.yielded, ?_, ?_⟩
    · rintro - p hp
      cases hp
      exact .inr rfl
    · intro hy
      by_cases hpoint : s.point.Stopping
      · exact .inr (.inr hpoint)
      · exact .inl (h.survived hg hpause hpoint hy)

end Inv

/-! ### Waits -/

/-- A failed wait keeps a request that a survivor has noted. -/
theorem held_failWait {s : SessionTask} {g : Since} (c : Session)
    (htimeout : s.point.isEnded = false → s.timeout = 0) (hpassed : g.passed = false)
    (hrelayed : g.relayed = false) (hyielded : g.survived = true → g.yielded = true)
    (hstop : g.yielded = true → s.point.survives = false → g.survived = true ∨
      (s.point.failed c.type).Stopping) :
    (s.failWait c).Held { g with survived := g.survived || (g.yielded && s.point.survives) } where
  timeout := fun hended => htimeout (Point.isEnded_failed hended)
  passed := hpassed
  relayed := hrelayed
  yielded := by
    intro hsurv
    obtain hsurv | hsurv := Bool.or_eq_true_iff.mp hsurv
    · exact hyielded hsurv
    · exact (Bool.and_eq_true_iff.mp hsurv).1
  pause := by
    rintro - p hp
    cases hp
  stopping := by
    intro hy
    cases hpoint : s.point.survives with
    | true => exact .inl (by simp [show g.yielded = true from hy])
    | false =>
        obtain hsurv | hstopping := hstop hy hpoint
        · exact .inl (by simp [hsurv])
        · exact .inr (.inr hstopping)

/-- The yielder fails at once if the request is in the timeout, unless it is called with
`HEV_TASK_YIELD`. -/
theorem yielder_zero {type : YieldType} {p : Pause} (h : yielder type 0 = some p) : p = .yield := by
  cases type with
  | yield => exact (Option.some.inj h).symm
  | waitio => cases h

namespace Inv
variable {s : SessionTask} (h : s.Inv)
include h

/-- A call of the yielder that fails. -/
theorem noteYield_failWait (c : Session) (hwait : s.point.CanWait) {v : Int}
    (hv : v = 0 ∨ v = s.timeout) : Inv (failWait c { s.noteYield with timeout := v }) where
  givesUp := Point.givesUp_failed _ h.givesUp
  held := by
    intro g hg
    obtain ⟨g₁, hg₁, rfl⟩ := since_map hg
    obtain ⟨g₀, hg₀, rfl⟩ := since_map hg₁
    have hheld := h.held g₀ hg₀
    refine held_failWait c ?_ hheld.passed hheld.relayed (fun _ => rfl) ?_
    · intro hended
      obtain rfl | rfl := hv
      · rfl
      · exact hheld.timeout hended
    · intro _ hsurv
      exact .inr (hwait.stopping h.givesUp hsurv)

theorem callYielder (c : Session) (hwait : s.point.CanWait) (type : YieldType) (closed : Bool) :
    (s.callYielder c type closed).Inv := by
  unfold SessionTask.callYielder
  split_ifs
  · exact h.noteYield_failWait c hwait (.inl rfl)
  · cases hyield : yielder type s.timeout with
    | none => exact h.noteYield_failWait c hwait (.inr rfl)
    | some p =>
        refine ⟨h.givesUp, ?_⟩
        intro g hg
        obtain ⟨g₀, hg₀, rfl⟩ := since_map hg
        have hheld := h.held g₀ hg₀
        rw [hheld.timeout hwait.isEnded] at hyield
        obtain rfl := yielder_zero hyield
        refine ⟨hheld.timeout, hheld.passed, hheld.relayed, fun _ => rfl, ?_, fun _ => .inr (.inl rfl)⟩
        rintro - p hp
        cases hp
        exact .inl rfl

/-- The end of a pause. -/
theorem resume (c : Session) {p : Pause} (hpause : s.pause = some p) (left : ℕ) :
    Inv (if p.passes left then s.passWait p else s.failWait c) := by
  split_ifs with hpass
  · refine ⟨Point.givesUp_passed h.givesUp, ?_⟩
    intro g hg
    obtain ⟨g₀, hg₀, rfl⟩ := since_map hg
    have hheld := h.held g₀ hg₀
    refine ⟨fun hended => hheld.timeout (Point.isEnded_passed hended), ?_, hheld.relayed, ?_, ?_, ?_⟩
    · -- a wait for I/O that is successful began before the request
      show (g₀.passed || (g₀.yielded && (p = .waitio || p = .sleep))) = false
      cases hy : g₀.yielded with
      | false => simp [hheld.passed]
      | true => obtain rfl | rfl := hheld.pause hy p hpause <;> simp [hheld.passed]
    · intro hsurv
      obtain hsurv | hsurv := Bool.or_eq_true_iff.mp hsurv
      · exact hheld.yielded hsurv
      · exact (Bool.and_eq_true_iff.mp hsurv).1
    · rintro - p hp
      cases hp
    · intro hy
      replace hy : g₀.yielded = true := hy
      obtain rfl | rfl := hheld.pause hy p hpause
      · exact .inl (by simp [hy])
      · obtain hsurv | hyield | hstop := hheld.stopping hy
        · exact .inl (by simp [hsurv])
        · rw [hpause] at hyield
          cases hyield
        · exact .inr (.inr hstop.passed)
  · refine ⟨Point.givesUp_failed _ h.givesUp, ?_⟩
    intro g hg
    obtain ⟨g₀, hg₀, rfl⟩ := since_map hg
    have hheld := h.held g₀ hg₀
    refine held_failWait c hheld.timeout hheld.passed hheld.relayed hheld.yielded ?_
    intro hy
    -- a wait that can fail began before the request
    obtain rfl | rfl := hheld.pause hy p hpause
    · exact absurd rfl hpass
    · exact absurd rfl hpass

theorem terminate {s' : SessionTask} (hs : s.terminate = some s') : s'.Inv := by
  obtain ⟨task, -, hs⟩ := Option.bind_eq_some_iff.mp hs
  cases hs
  refine ⟨h.givesUp, ?_⟩
  intro g hg
  cases hsince : s.since with
  | none =>
      simp only [hsince, Option.getD_none, Option.some.injEq] at hg
      subst hg
      exact ⟨fun _ => rfl, rfl, rfl, nofun, nofun, nofun⟩
  | some g₀ =>
      simp only [hsince, Option.getD_some, Option.some.injEq] at hg
      subst hg
      obtain ⟨-, hpassed, hrelayed, hyielded, hpause, hstop⟩ := h.held g₀ hsince
      exact ⟨fun _ => rfl, hpassed, hrelayed, hyielded, hpause, hstop⟩

end Inv

/-! ### Running -/

section run
variable {c : Session} {s s' : SessionTask} {closed : Bool}

/-- A handshake that goes on. -/
theorem Inv.handshake (h : s.Inv) (hpause : s.pause = none) {p q : Client.ClientProg Int}
    {wrote wrote' : Bool} (hpoint : s.point = .handshake p wrote) (hret : ∀ r, p ≠ .ret r)
    (hq : q.FailsWith (-1)) : Inv { s with point := .handshake q wrote' } := by
  refine h.goto hpause hq (by rw [hpoint]; rfl) ?_
  intro hstop
  rw [hpoint] at hstop
  cases p with
  | ret r => exact absurd rfl (hret r)
  | _ => exact hstop.elim

theorem Inv.endHandshake (h : s.Inv) (hpause : s.pause = none) {r : Int} {wrote : Bool}
    (hpoint : s.point = .handshake (.ret r) wrote) {a : Answer}
    (hundo : ¬ Undoes c s (.run a closed)) (hs : s.endHandshake c r a = some s') : s'.Inv := by
  have hended : s.point.isEnded = false := by
    rw [hpoint]
    rfl
  cases a with
  | ok =>
      cases hs
      refine h.move hpause ?_ ?_ ?_
      · split_ifs <;> exact trivial
      · intro hsince hgo
        obtain ⟨g, hg⟩ := Option.ne_none_iff_exists'.mp hsince
        by_cases htcp : c.type = .tcp
        · rw [if_pos htcp]
          exact (h.held g hg).timeout hended
        · rw [if_neg htcp]
          split_ifs at hgo with hr
          · cases hgo
          · -- the successful end of a UDP handshake stores its timeout
            by_contra hudp
            refine hundo ⟨g, hg, .inl ?_⟩
            rw [hpoint]
            exact ⟨by omega, htcp, hudp⟩
      · intro hstop
        rw [hpoint] at hstop
        obtain rfl : r = -1 := hstop
        exact trivial
  | fail =>
      simp only [SessionTask.endHandshake] at hs
      split_ifs at hs
      cases hs
      exact h.goto hpause trivial hended (fun _ => trivial)
  | _ => cases hs

theorem Inv.handshakeCall (h : s.Inv) (hpause : s.pause = none) {p : Client.ClientProg Int}
    {wrote : Bool} (hpoint : s.point = .handshake p wrote) {a : Answer}
    (hundo : ¬ Undoes c s (.run a closed)) (hs : s.handshakeCall c closed p wrote a = some s') :
    s'.Inv := by
  have hp : p.FailsWith (-1) := by
    have := h.givesUp
    rwa [hpoint] at this
  have hfail := Point.givesUp_failed c.type (p := .handshake p wrote)
  cases p with
  | ret r => exact h.endHandshake hpause hpoint hundo hs
  | act b k =>
      cases a with
      | ok =>
          cases hs
          exact h.handshake hpause hpoint nofun hp
      | lock =>
          cases hs
          exact h.stop_other hpause
      | _ => cases hs
  | recv n k =>
      cases a with
      | bytes bs =>
          simp only [SessionTask.handshakeCall] at hs
          split_ifs at hs with hlen hpart
          · cases hs
            exact h.handshake hpause hpoint nofun (hp.2 bs)
          · cases hs
            exact h.handshake hpause hpoint nofun (hp.recvPart bs)
      | fail =>
          cases hs
          exact h.handshake hpause hpoint nofun (hfail hp)
      | block moved =>
          cases moved with
          | false =>
              cases hs
              exact h.callYielder c (by rw [hpoint]; exact trivial) _ _
          | true => cases hs
      | _ => cases hs
  | send bs k =>
      cases a with
      | wrote n =>
          simp only [SessionTask.handshakeCall] at hs
          split_ifs at hs with hlen hpart
          · cases hs
            exact h.handshake hpause hpoint nofun hp.2
          · cases hs
            exact h.handshake hpause hpoint nofun hp
      | fail =>
          cases hs
          exact h.handshake hpause hpoint nofun (hfail hp)
      | block moved =>
          cases moved with
          | false =>
              cases hs
              exact h.callYielder c (by rw [hpoint]; exact trivial) _ _
          | true => cases hs
      | _ => cases hs

theorem Inv.endRound (h : s.Inv) (hpause : s.pause = none) (hended : s.point.isEnded = false)
    (hpoint : ¬ s.point.Stopping) (resF resB : Int) : (s.endRound c closed resF resB).Inv := by
  unfold SessionTask.endRound
  cases roundType resF resB with
  | none =>
      refine h.goto hpause ?_ hended (fun hstop => absurd hstop hpoint)
      unfold Point.afterLoop
      split_ifs <;> exact trivial
  | some type =>
      have hround : Inv { s with point := .round resF resB } :=
        h.goto hpause trivial hended (fun hstop => absurd hstop hpoint)
      exact hround.callYielder c trivial _ _

/-- Data that is moved without undoing the request is moved before the first yield. -/
theorem Inv.relay_of_not_undoes (h : s.Inv) (hpause : s.pause = none) (hpoint : ¬ s.point.Stopping)
    {x : Step} (hundo : ¬ Undoes c s x) (moved : Bool) (hm : moved = true → MovesData s.point x) :
    (s.relay moved).Inv := by
  apply h.relay
  intro g hg hy
  by_contra hmoved
  rw [Bool.not_eq_false] at hmoved
  exact hundo ⟨g, hg, .inr ⟨h.survived hg hpause hpoint hy, hm hmoved⟩⟩

theorem Inv.forwardCall (h : s.Inv) (hpause : s.pause = none) {resF resB : Int} {sent failed : Bool}
    (hpoint : s.point = .forward resF resB sent failed) {a : Answer}
    (hundo : ¬ Undoes c s (.run a closed))
    (hs : s.forwardCall c closed resF resB sent failed a = some s') : s'.Inv := by
  obtain ⟨point, pause, task, timeout, since⟩ := s
  obtain rfl : point = .forward resF resB sent failed := hpoint
  cases a with
  | ok =>
      simp only [SessionTask.forwardCall] at hs
      split_ifs at hs
      cases hs
      exact h.goto hpause trivial rfl False.elim
  | spliced r =>
      simp only [SessionTask.forwardCall] at hs
      split at hs
      · cases hs
      · cases hs
        have hrelay := h.relay_of_not_undoes hpause id hundo r.relays id
        exact hrelay.goto hpause trivial rfl False.elim
  | block moved =>
      simp only [SessionTask.forwardCall] at hs
      split_ifs at hs
      cases hs
      have hrelay := h.relay_of_not_undoes hpause id hundo moved id
      have hsent := hrelay.goto hpause (p := .forward resF resB (sent || moved) false) trivial rfl
        False.elim
      exact hsent.callYielder c trivial _ _
  | fail =>
      simp only [SessionTask.forwardCall] at hs
      split at hs
      · cases hs
        exact h.goto hpause trivial rfl False.elim
      · cases hs
  | lock =>
      simp only [SessionTask.forwardCall] at hs
      split_ifs at hs
      cases hs
      exact h.stop_other hpause
  | _ => cases hs

theorem Inv.backwardCall (h : s.Inv) (hpause : s.pause = none) {resF resB : Int} {failed : Bool}
    (hpoint : s.point = .backward resF resB failed) {a : Answer}
    (hundo : ¬ Undoes c s (.run a closed))
    (hs : s.backwardCall c closed resF resB failed a = some s') : s'.Inv := by
  obtain ⟨point, pause, task, timeout, since⟩ := s
  obtain rfl : point = .backward resF resB failed := hpoint
  cases a with
  | ok =>
      simp only [SessionTask.backwardCall] at hs
      split_ifs at hs
      cases hs
      exact h.endRound hpause rfl id _ _
  | spliced r =>
      simp only [SessionTask.backwardCall] at hs
      split_ifs at hs
      cases hs
      have hrelay := h.relay_of_not_undoes hpause id hundo r.relays id
      exact hrelay.endRound hpause rfl id _ _
  | block moved =>
      cases moved with
      | false =>
          simp only [SessionTask.backwardCall] at hs
          split_ifs at hs
          cases hs
          exact h.callYielder c trivial _ _
      | true => cases hs
  | lock =>
      simp only [SessionTask.backwardCall] at hs
      split_ifs at hs
      cases hs
      exact h.stop_other hpause
  | _ => cases hs

theorem Inv.runOn (h : s.Inv) (hpause : s.pause = none) {a : Answer}
    (hundo : ¬ Undoes c s (.run a closed)) (hs : s.runOn c closed s.point a = some s') : s'.Inv := by
  -- a step that stores a timeout does not undo the request if there is none, or if it stores 0
  have hstore : ∀ {v : Int}, (v ≠ 0 → Stores c s.point (.run a closed)) → s.since ≠ none → v = 0 := by
    intro v hv hsince
    obtain ⟨g, hg⟩ := Option.ne_none_iff_exists'.mp hsince
    by_contra hne
    exact hundo ⟨g, hg, .inl (hv hne)⟩
  obtain ⟨point, pause, task, timeout, since⟩ := s
  cases point with
  | start =>
      cases a with
      | ok =>
          cases hs
          exact h.move hpause trivial (fun hsince _ => hstore id hsince) False.elim
      | _ => cases hs
  | resolve =>
      cases a with
      | ok =>
          cases hs
          exact h.goto hpause trivial rfl False.elim
      | fail =>
          cases hs
          exact h.goto hpause trivial rfl (fun _ => trivial)
      | lock =>
          cases hs
          exact h.stop_other hpause
      | _ => cases hs
  | connect =>
      cases a with
      | ok =>
          cases hs
          exact h.move hpause (c.client.failsWith_handshake c.env c.pipeline)
            (fun hsince _ => hstore id hsince) False.elim
      | fail =>
          cases hs
          exact h.goto hpause trivial rfl (fun _ => trivial)
      | block moved =>
          cases moved with
          | false =>
              cases hs
              exact h.callYielder c trivial _ _
          | true => cases hs
      | _ => cases hs
  | handshake p wrote => exact h.handshakeCall hpause rfl hundo hs
  | forward resF resB sent failed => exact h.forwardCall hpause rfl hundo hs
  | backward resF resB failed => exact h.backwardCall hpause rfl hundo hs
  | drain =>
      cases a with
      | ok =>
          cases hs
          exact h.goto hpause trivial rfl (fun _ => trivial)
      | block moved =>
          cases moved with
          | false =>
              cases hs
              exact h.callYielder c trivial _ _
          | true => cases hs
      | _ => cases hs
  | round resF resB => cases hs
  | ended => cases hs

theorem step_run {a : Answer} (hs : s.step c (.run a closed) = some s') :
    s.pause = none ∧ s.runOn c closed s.point a = some s' := by
  simp only [SessionTask.step] at hs
  split_ifs at hs with hended hrun
  exact ⟨hrun.1, hs⟩

theorem step_resume {left : ℕ} (hs : s.step c (.resume left) = some s') :
    ∃ p, s.pause = some p ∧ s' = if p.passes left then s.passWait p else s.failWait c := by
  simp only [SessionTask.step] at hs
  by_cases hended : s.point.isEnded
  · rw [if_pos hended] at hs
    cases hs
  · rw [if_neg hended] at hs
    split at hs
    · next p hpause htask =>
        cases hs
        exact ⟨p, hpause, rfl⟩
    · cases hs

/-- A step that does not undo the request keeps the invariant. -/
theorem Inv.step (h : s.Inv) {x : Step} (hs : s.step c x = some s') (hundo : ¬ Undoes c s x) :
    s'.Inv := by
  cases x with
  | start =>
      simp only [SessionTask.step] at hs
      split_ifs at hs
      cases hs
      exact h.task _
  | terminate =>
      simp only [SessionTask.step] at hs
      split_ifs at hs
      exact h.terminate hs
  | wakeup =>
      simp only [SessionTask.step] at hs
      split_ifs at hs
      obtain ⟨t, -, rfl⟩ := Option.map_eq_some_iff.mp hs
      exact h.task t
  | resume left =>
      obtain ⟨p, hpause, rfl⟩ := step_resume hs
      exact h.resume c hpause left
  | run a closed =>
      obtain ⟨hpause, hrun⟩ := step_run hs
      exact h.runOn hpause hundo hrun

/-! ### Steps that lose the request -/

theorem stores_cases {p : Point} {x : Step} (h : Stores c p x) : ∃ closed, x = .run .ok closed ∧
    ((p = .start ∧ c.connectTimeout ≠ 0) ∨ (p = .connect ∧ c.tcpTimeout ≠ 0) ∨
      ∃ r wrote, p = .handshake (.ret r) wrote ∧ 0 ≤ r ∧ c.type ≠ .tcp ∧ c.udpTimeout ≠ 0) := by
  unfold Stores at h
  split at h
  · exact ⟨_, rfl, .inl ⟨rfl, h⟩⟩
  · exact ⟨_, rfl, .inr (.inl ⟨rfl, h⟩)⟩
  · exact ⟨_, rfl, .inr (.inr ⟨_, _, rfl, h⟩)⟩
  · exact h.elim

/-- A timeout that is stored after the request is in the way of a task that has not ended. -/
theorem not_kept_of_stores {x : Step} {g : Since} (hs : s.step c x = some s') (hg : s.since = some g)
    (hx : Stores c s.point x) : ¬ s'.Kept := by
  obtain ⟨closed, rfl, hcases⟩ := stores_cases hx
  obtain ⟨-, hrun⟩ := step_run hs
  obtain ⟨hpoint, hne⟩ | ⟨hpoint, hne⟩ | ⟨r, wrote, hpoint, hr, htype, hne⟩ := hcases
  · rw [hpoint] at hrun
    cases hrun
    exact fun hkept => hne ((hkept g hg).1 rfl)
  · rw [hpoint] at hrun
    cases hrun
    exact fun hkept => hne ((hkept g hg).1 rfl)
  · rw [hpoint] at hrun
    cases hrun
    intro hkept
    have htimeout := (hkept g hg).1
    simp only [if_neg htype, if_neg (Int.not_lt.mpr hr)] at htimeout
    exact hne (htimeout rfl)

theorem movesData_cases {p : Point} {x : Step} (h : MovesData p x) : ∃ a closed, x = .run a closed ∧
    ((∃ r, a = .spliced r ∧ r.relays = true ∧
        ((∃ resF resB sent failed, p = .forward resF resB sent failed) ∨
          ∃ resF resB failed, p = .backward resF resB failed)) ∨
      (a = .block true ∧ ∃ resF resB sent failed, p = .forward resF resB sent failed)) := by
  unfold MovesData at h
  split at h
  · exact ⟨_, _, rfl, .inl ⟨_, rfl, h, .inl ⟨_, _, _, _, rfl⟩⟩⟩
  · exact ⟨_, _, rfl, .inr ⟨by rw [h], _, _, _, _, rfl⟩⟩
  · exact ⟨_, _, rfl, .inl ⟨_, rfl, h, .inr ⟨_, _, _, rfl⟩⟩⟩
  · exact h.elim

/-- Data has been relayed after a yield that followed the request. -/
def Relayed (s : SessionTask) : Prop := ∃ g, s.since = some g ∧ g.relayed = true

theorem Relayed.not_kept (h : s.Relayed) : ¬ s.Kept := by
  obtain ⟨g, hg, hrelayed⟩ := h
  intro hkept
  rw [(hkept g hg).2.2] at hrelayed
  cases hrelayed

theorem Relayed.noteYield (h : s.Relayed) : s.noteYield.Relayed := by
  obtain ⟨g, hg, hrelayed⟩ := h
  exact ⟨{ g with yielded := true }, congrArg (Option.map _) hg, hrelayed⟩

theorem Relayed.failWait (h : s.Relayed) (c : Session) : (s.failWait c).Relayed := by
  obtain ⟨g, hg, hrelayed⟩ := h
  exact ⟨{ g with survived := _ }, congrArg (Option.map _) hg, hrelayed⟩

theorem Relayed.callYielder (h : s.Relayed) (c : Session) (type : YieldType) (closed : Bool) :
    (s.callYielder c type closed).Relayed := by
  unfold SessionTask.callYielder
  split_ifs
  · exact Relayed.failWait h.noteYield c
  · cases yielder type s.timeout with
    | none => exact Relayed.failWait h.noteYield c
    | some p => exact h.noteYield

theorem Relayed.endRound (h : s.Relayed) (c : Session) (closed : Bool) (resF resB : Int) :
    (s.endRound c closed resF resB).Relayed := by
  unfold SessionTask.endRound
  cases roundType resF resB with
  | none => exact h
  | some type =>
      have hround : Relayed { s with point := .round resF resB } := h
      exact hround.callYielder c type closed

theorem relayed_relay {g : Since} (hg : s.since = some g) (hy : g.yielded = true) :
    (s.relay true).Relayed :=
  ⟨{ g with relayed := _ }, congrArg (Option.map _) hg, by simp [hy]⟩

theorem not_kept_of_movesData {x : Step} {g : Since} (hs : s.step c x = some s')
    (hg : s.since = some g) (hy : g.yielded = true) (hx : MovesData s.point x) : ¬ s'.Kept := by
  apply Relayed.not_kept
  have hrelayed := relayed_relay hg hy
  obtain ⟨a, closed, rfl, hcases⟩ := movesData_cases hx
  obtain ⟨-, hrun⟩ := step_run hs
  obtain ⟨r, rfl, hr, ⟨resF, resB, sent, failed, hpoint⟩ | ⟨resF, resB, failed, hpoint⟩⟩ |
    ⟨rfl, resF, resB, sent, failed, hpoint⟩ := hcases
  · rw [hpoint] at hrun
    simp only [SessionTask.runOn, SessionTask.forwardCall, hr] at hrun
    split at hrun
    · cases hrun
    · cases hrun
      exact hrelayed
  · rw [hpoint] at hrun
    simp only [SessionTask.runOn, SessionTask.backwardCall, hr] at hrun
    split_ifs at hrun
    cases hrun
    exact hrelayed.endRound c closed _ _
  · rw [hpoint] at hrun
    simp only [SessionTask.runOn, SessionTask.forwardCall] at hrun
    split_ifs at hrun
    cases hrun
    have hsent : Relayed { s.relay true with point := .forward resF resB (sent || true) false } :=
      hrelayed
    exact hsent.callYielder c _ closed

end run

/-- The request to terminate a session is kept in every state of a run exactly if no step of the run
undoes it. -/
theorem everyState_kept_iff (c : Session) (xs : List Step) :
    EveryState (step c) Kept init xs ↔ EveryStep (step c) (fun s x => ¬ Undoes c s x) init xs := by
  refine everyState_iff Inv Inv.kept (fun h hs hundo => h.step hs hundo) ?_ init_inv xs
  rintro s x s' h hs ⟨g, hg, hstores | ⟨hsurv, hmoves⟩⟩
  · exact not_kept_of_stores hs hg hstores
  · exact not_kept_of_movesData hs hg ((h.held g hg).yielded hsurv) hmoves

/-! ### Sessions that lose the request -/

/-- A TCP session to port 80 of `10.0.0.1`, with the default timeouts. -/
def sampleSession : Session where
  client := ⟨.tcp (addrFromIpv4 0x0a000001 80), none, none⟩
  env := ⟨true, fun _ => true, fun _ => true⟩
  pipeline := false
  connectTimeout := 10000
  tcpTimeout := 300000
  udpTimeout := 60000

/-- A handshake in which the server answers at once. -/
def sampleHandshake : List Step :=
  [.run (.wrote 3) false, .run (.bytes [5, 0]) false, .run (.wrote 10) false,
    .run (.bytes [5, 0, 0, 1]) false, .run (.bytes [0, 0, 0, 0, 0, 0]) false, .run .ok false]

/-- A session that is terminated while it has nothing to relay fails its next wait and ends. -/
example : (runSteps (step sampleSession) init ([.start, .run .ok false, .run .ok false, .run .ok false] ++
    sampleHandshake ++ [.run (.spliced .nothing) false, .run (.spliced .nothing) false, .terminate,
      .resume 299000, .run (.spliced .nothing) false, .run (.spliced .nothing) false,
      .run .ok false])).map (fun s => (s.timeout, s.since, s.point.isEnded)) =
    some (0, some ⟨true, false, false, false⟩, true) := by
  decide +kernel

/-- The session is terminated while it waits for the connection, and the connection is made. -/
def terminatedConnecting : List Step :=
  [.start, .run .ok false, .run .ok false, .run (.block false) false, .terminate, .resume 9000, .run .ok false,
    .run (.block false) false, .wakeup, .resume 299000] ++ sampleHandshake ++
    [.run (.spliced .moved) false, .run (.spliced .nothing) false]

/-- The session is terminated while it waits for data to relay, and there is data. -/
def terminatedRelaying : List Step :=
  [.start, .run .ok false, .run .ok false, .run .ok false] ++ sampleHandshake ++
    [.run (.spliced .nothing) false, .run (.spliced .nothing) false, .terminate, .resume 299000,
      .run (.spliced .moved) false, .run (.spliced .nothing) false, .resume 0,
      .run (.spliced .moved) false, .run (.spliced .nothing) false]

/-- In the first session the handshake stores its timeout: the session waits successfully and relays.
In the second one the timeout stays 0, but the session yields without a look at it and relays. -/
theorem terminated_sessions_relay :
    (∃ s, runSteps (step sampleSession) init terminatedConnecting = some s ∧ s.timeout = 300000 ∧
      s.since = some ⟨true, true, false, true⟩ ∧ s.point.isEnded = false ∧ ¬ s.Kept) ∧
    ∃ s, runSteps (step sampleSession) init terminatedRelaying = some s ∧ s.timeout = 0 ∧
      s.since = some ⟨true, false, true, true⟩ ∧ s.point.isEnded = false ∧ ¬ s.Kept := by
  have h₁ : (runSteps (step sampleSession) init terminatedConnecting).map
      (fun s => (s.timeout, s.since, s.point.isEnded)) =
        some (300000, some ⟨true, true, false, true⟩, false) := by decide +kernel
  have h₂ : (runSteps (step sampleSession) init terminatedRelaying).map
      (fun s => (s.timeout, s.since, s.point.isEnded)) =
        some (0, some ⟨true, false, true, true⟩, false) := by decide +kernel
  obtain ⟨s₁, hs₁, heq₁⟩ := Option.map_eq_some_iff.mp h₁
  obtain ⟨s₂, hs₂, heq₂⟩ := Option.map_eq_some_iff.mp h₂
  obtain ⟨htimeout₁, hsince₁, hended₁⟩ : _ ∧ _ ∧ _ := by simpa using heq₁
  obtain ⟨htimeout₂, hsince₂, hended₂⟩ : _ ∧ _ ∧ _ := by simpa using heq₂
  exact ⟨⟨s₁, hs₁, htimeout₁, hsince₁, hended₁, Relayed.not_kept ⟨_, hsince₁, rfl⟩⟩,
    s₂, hs₂, htimeout₂, hsince₂, hended₂, Relayed.not_kept ⟨_, hsince₂, rfl⟩⟩

end SessionTask

end HevTunnel
