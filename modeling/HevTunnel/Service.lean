import HevTunnel.Transition
import Mathlib.Data.Int.Notation
import Mathlib.Tactic.Common

/-! # Starting and stopping the service

On Android the tunnel runs in a worker thread.  `native_start_service` creates the thread, and
`native_stop_service` tells it to quit and joins it; both hold a mutex.  To tell it,
`hev_socks5_tunnel_stop` writes into a pair of sockets that the worker makes in the middle of its
initialisation, and polls for their descriptor until it is there.

* `Service` has the flag of the service, the descriptors, and the program points of the worker and
  of the call that stops it.
* `Service.everyState_awaited_iff`: while the call polls, the worker is on its way to the
  descriptors, exactly if the initialisation of no worker fails before a stop or during one. -/

namespace HevTunnel

/-- The steps of `hev_socks5_tunnel_main` up to `hev_socks5_tunnel_run` that return a result. -/
inductive InitPoint where
  | config
  | logger
  | socksLogger
  | taskSystem
  | tunnel
  | gateway
  | socketpair
  | nonblock
  | eventTask
  | ioTask
  | timerTask
  | mappedDns
deriving DecidableEq

namespace InitPoint

/-- The step behind, `none` behind the last one. -/
def next : InitPoint → Option InitPoint
  | config => some logger
  | logger => some socksLogger
  | socksLogger => some taskSystem
  | taskSystem => some tunnel
  | tunnel => some gateway
  | gateway => some socketpair
  | socketpair => some nonblock
  | nonblock => some eventTask
  | eventTask => some ioTask
  | ioTask => some timerTask
  | timerTask => some mappedDns
  | mappedDns => none

/-- The step is one of `hev_socks5_tunnel_init`, which cleans up when it fails. -/
def inTunnel : InitPoint → Bool
  | config | logger | socksLogger | taskSystem => false
  | _ => true

/-- The descriptors have been made. -/
def hasFds : InitPoint → Bool
  | nonblock | eventTask | ioTask | timerTask | mappedDns => true
  | _ => false

/-- `gateway_init` always returns `0`. -/
def canFail (p : InitPoint) : Bool := p != gateway

/-- Only the step that makes the descriptors changes whether they are there. -/
theorem next_cases (p : InitPoint) : p = socketpair ∨ p = mappedDns ∨
    ∃ p', p ≠ socketpair ∧ p.next = some p' ∧ p'.hasFds = p.hasFds := by
  cases p <;> simp [next, hasFds]

theorem hasFds_of_not_inTunnel {p : InitPoint} (h : p.inTunnel = false) : p.hasFds = false := by
  cases p <;> simp_all [inTunnel, hasFds]

end InitPoint

/-- Where the worker thread is; behind the initialisation with whether it has failed. -/
inductive Worker where
  /-- There is no thread, or it was joined. -/
  | none
  | init (p : InitPoint)
  | running
  /-- In `hev_socks5_tunnel_fini`, in front of `event_task_fini` and behind it. -/
  | fini (failed : Bool)
  | closed (failed : Bool)
  | ended (failed : Bool)
deriving DecidableEq

namespace Worker

/-- The worker is in its initialisation, which has not failed. -/
def Initialising : Worker → Prop
  | init _ => True
  | _ => False

/-- The initialisation of the worker has failed. -/
def Failed (w : Worker) : Prop := w = fini true ∨ w = closed true ∨ w = ended true

/-- The worker has left `hev_socks5_tunnel_run`. -/
def Quit (w : Worker) : Prop := w = fini false ∨ w = closed false ∨ w = ended false

/-- What `event_fds[1]` can be. -/
def FdOk : Worker → Int → Prop
  | none, fd => fd < 0
  | init p, fd => p.hasFds = true ↔ 0 ≤ fd
  | running, fd => 0 ≤ fd
  | fini _, _ => True
  | closed _, fd => fd < 0
  | ended _, fd => fd < 0

end Worker

/-- Where a call of `native_stop_service` that found the service working is. -/
inductive StopPoint where
  /-- There is no such call, and the mutex is free. -/
  | none
  /-- In the loop of `hev_socks5_tunnel_stop`. -/
  | wait
  | write (fd : Int)
  | join
deriving DecidableEq

structure Service where
  isWorking : Bool
  eventFds : Int × Int
  /-- There is a byte for `event_fds[0]` to read. -/
  event : Bool
  worker : Worker
  stop : StopPoint
deriving DecidableEq

namespace Service

/-- Before the first call. -/
def init : Service := ⟨false, (-1, -1), false, .none, .none⟩

/-- A step of the worker; `ok` is whether what it does succeeds, `fds` what `socketpair` makes. -/
def work (s : Service) (ok : Bool) (fds : ℕ × ℕ) : Option Service :=
  match s.worker with
  | .none => none
  | .init p =>
      if ok then
        let s :=
          if p = .socketpair then { s with eventFds := ((fds.1 : Int), (fds.2 : Int)), event := false }
          else s
        match p.next with
        | some p' => some { s with worker := .init p' }
        | none => some { s with worker := .running }
      else if p.canFail then
        some { s with worker := if p.inTunnel then .fini true else .ended true }
      else none
  | .running => if s.event then some { s with event := false, worker := .fini false } else none
  | .fini failed => some { s with eventFds := (-1, -1), event := false, worker := .closed failed }
  | .closed failed => some { s with worker := .ended failed }
  | .ended _ => none

inductive Step where
  /-- `native_start_service`; `created` is whether `pthread_create` succeeds. -/
  | start (created : Bool)
  /-- `native_stop_service` up to the loop of `hev_socks5_tunnel_stop`. -/
  | stop
  /-- A round of the loop. -/
  | poll
  /-- The write behind the loop.  If it fails, so does an assertion. -/
  | write
  /-- `pthread_join` and the end of `native_stop_service`. -/
  | join
  | work (ok : Bool) (fds : ℕ × ℕ)

/-- A call of one of the two functions waits for the mutex while there is a call that stops. -/
def step (s : Service) : Step → Option Service
  | .start created =>
      if s.stop ≠ .none then none
      else if s.isWorking then some s
      else if created then some { s with isWorking := true, worker := .init .config }
      else some s
  | .stop =>
      if s.stop ≠ .none then none
      else if s.isWorking then some { s with stop := .wait }
      else some s
  | .poll =>
      if s.stop ≠ .wait then none
      else if 0 ≤ s.eventFds.2 then some { s with stop := .write s.eventFds.2 }
      else some s
  | .write =>
      match s.stop with
      | .write fd =>
          if 0 ≤ fd ∧ fd = s.eventFds.2 then some { s with event := true, stop := .join } else none
      | _ => none
  | .join =>
      match s.stop, s.worker with
      | .join, .ended _ => some { s with isWorking := false, worker := .none, stop := .none }
      | _, _ => none
  | .work ok fds => s.work ok fds

/-- The call that stops waits only for a worker that is still on its way. -/
def Awaited (s : Service) : Prop := s.stop = .wait → s.eventFds.2 < 0 → s.worker.Initialising

/-- The call that stops comes after a failure of the worker that has left no descriptors, or the
worker fails without descriptors, or gives them up, during the call. -/
def Strands (s : Service) : Step → Prop
  | .stop => s.isWorking = true ∧ s.worker.Failed ∧ s.eventFds.2 < 0
  | .work ok _ => s.stop = .wait ∧
      ((∃ p, s.worker = .init p ∧ p.canFail = true ∧ ok = false ∧ s.eventFds.2 < 0) ∨
        s.worker = .fini true)
  | _ => False

/-- What holds as long as no call is stranded. -/
structure Inv (s : Service) : Prop where
  awaited : s.Awaited
  fd : s.worker.FdOk s.eventFds.2
  working : s.isWorking = false ↔ s.worker = .none
  event : s.event = true → s.stop = .join ∧ 0 ≤ s.eventFds.2
  quit : s.worker.Quit → s.stop = .join

theorem inv_init : Inv init where
  awaited := by simp [Awaited, init]
  fd := by simp [init, Worker.FdOk]
  working := by simp [init]
  event := by simp [init]
  quit := by simp [init, Worker.Quit]

/-! ### The worker -/

theorem work_cases {s s' : Service} {ok : Bool} {fds : ℕ × ℕ} (h : s.work ok fds = some s') :
    (∃ p p', s.worker = .init p ∧ p'.hasFds = p.hasFds ∧ s' = { s with worker := .init p' }) ∨
    (s.worker = .init .socketpair ∧ s' = { s with
      eventFds := ((fds.1 : Int), (fds.2 : Int)), event := false, worker := .init .nonblock }) ∨
    (s.worker = .init .mappedDns ∧ s' = { s with worker := .running }) ∨
    (∃ p, s.worker = .init p ∧ ok = false ∧ p.canFail = true ∧
      s' = { s with worker := if p.inTunnel then .fini true else .ended true }) ∨
    (s.worker = .running ∧ s.event = true ∧ s' = { s with event := false, worker := .fini false }) ∨
    (∃ b, s.worker = .fini b ∧
      s' = { s with eventFds := (-1, -1), event := false, worker := .closed b }) ∨
    (∃ b, s.worker = .closed b ∧ s' = { s with worker := .ended b }) := by
  unfold work at h
  split at h
  · cases h
  · rename_i p hp
    cases ok with
    | false =>
        rw [if_neg (by decide)] at h
        by_cases hfail : p.canFail = true
        · rw [if_pos hfail] at h
          cases h
          exact .inr (.inr (.inr (.inl ⟨p, hp, rfl, hfail, rfl⟩)))
        · rw [if_neg hfail] at h
          cases h
    | true =>
        rw [if_pos rfl] at h
        obtain rfl | rfl | ⟨p', hne, hnext, hfds⟩ := p.next_cases
        · cases h
          exact .inr (.inl ⟨hp, rfl⟩)
        · cases h
          exact .inr (.inr (.inl ⟨hp, rfl⟩))
        · simp only [if_neg hne, hnext, Option.some.injEq] at h
          exact .inl ⟨p, p', hp, hfds, h.symm⟩
  · rename_i hp
    split_ifs at h with he
    cases h
    exact .inr (.inr (.inr (.inr (.inl ⟨hp, he, rfl⟩))))
  · rename_i b hb
    cases h
    exact .inr (.inr (.inr (.inr (.inr (.inl ⟨b, hb, rfl⟩)))))
  · rename_i b hb
    cases h
    exact .inr (.inr (.inr (.inr (.inr (.inr ⟨b, hb, rfl⟩)))))
  · cases h

/-- A step of the worker keeps the invariant unless it strands a call. -/
theorem Inv.work {s s' : Service} {ok : Bool} {fds : ℕ × ℕ} (h : Inv s)
    (hs : s.work ok fds = some s') (hx : ¬ Strands s (.work ok fds)) : Inv s' := by
  have hfd := h.fd
  rcases work_cases hs with ⟨p, p', hw, hfds, rfl⟩ | ⟨hw, rfl⟩ | ⟨hw, rfl⟩ |
    ⟨p, hw, rfl, hfail, rfl⟩ | ⟨hw, he, rfl⟩ | ⟨b, hw, rfl⟩ | ⟨b, hw, rfl⟩
  all_goals rw [hw] at hfd
  · -- the next step of the initialisation
    refine ⟨fun _ _ => trivial, ?_, ?_, h.event, ?_⟩
    · simpa only [Worker.FdOk, hfds] using hfd
    · simpa [hw] using h.working
    · simp [Worker.Quit]
  · -- the descriptors
    refine ⟨fun _ _ => trivial, ?_, ?_, by simp, ?_⟩
    · simp [Worker.FdOk, InitPoint.hasFds]
    · simpa [hw] using h.working
    · simp [Worker.Quit]
  · -- the end of the initialisation
    have hpos : 0 ≤ s.eventFds.2 := hfd.mp rfl
    refine ⟨?_, hpos, ?_, h.event, ?_⟩
    · intro _ hneg
      exact absurd hpos (Int.not_le.mpr hneg)
    · simpa [hw] using h.working
    · simp [Worker.Quit]
  · -- a failure
    refine ⟨?_, ?_, ?_, h.event, ?_⟩
    · intro hstop hneg
      exact absurd ⟨hstop, .inl ⟨p, hw, hfail, rfl, hneg⟩⟩ hx
    · cases htun : p.inTunnel with
      | true => trivial
      | false =>
          have hno := InitPoint.hasFds_of_not_inTunnel htun
          simpa [Worker.FdOk, hno] using hfd
    · cases p.inTunnel <;> simpa [hw] using h.working
    · cases p.inTunnel <;> simp [Worker.Quit]
  · -- the event
    obtain ⟨hjoin, -⟩ := h.event he
    refine ⟨?_, trivial, ?_, by simp, fun _ => hjoin⟩
    · intro hstop
      rw [hjoin] at hstop
      cases hstop
    · simpa [hw] using h.working
  · -- the end of the descriptors
    have hquit : b = false → s.stop = .join := by
      rintro rfl
      exact h.quit (.inl hw)
    refine ⟨?_, by simp [Worker.FdOk], ?_, by simp, ?_⟩
    · intro hstop _
      cases b with
      | true => exact absurd ⟨hstop, .inr hw⟩ hx
      | false =>
          have hstop' : s.stop = .wait := hstop
          rw [hquit rfl] at hstop'
          cases hstop'
    · simpa [hw] using h.working
    · intro hq
      apply hquit
      simpa [Worker.Quit] using hq
  · -- the end of the thread
    refine ⟨?_, hfd, ?_, h.event, ?_⟩
    · intro hstop hneg
      have := h.awaited hstop hneg
      rw [hw] at this
      exact this.elim
    · simpa [hw] using h.working
    · intro hq
      apply h.quit
      rw [hw]
      simpa [Worker.Quit] using hq

/-! ### The calls -/

/-- Nobody has told the worker to quit before the call that stops has come to its end. -/
theorem Inv.not_quit {s : Service} (h : Inv s) (hstop : s.stop ≠ .join) :
    s.event = false ∧ ¬ s.worker.Quit := by
  refine ⟨?_, fun hq => hstop (h.quit hq)⟩
  cases he : s.event with
  | false => rfl
  | true => exact absurd (h.event he).1 hstop

/-- A worker that has no descriptors and will make none has failed. -/
theorem Inv.initialising_or_failed {s : Service} (h : Inv s) (hstop : s.stop ≠ .join)
    (hwork : s.isWorking = true) (hneg : s.eventFds.2 < 0) :
    s.worker.Initialising ∨ s.worker.Failed := by
  have hquit := (h.not_quit hstop).2
  have hfd := h.fd
  cases hw : s.worker with
  | none =>
      have := h.working.mpr hw
      rw [hwork] at this
      cases this
  | init p => exact .inl trivial
  | running =>
      rw [hw] at hfd
      exact absurd hfd (Int.not_le.mpr hneg)
  | fini b =>
      cases b with
      | true => exact .inr (.inl rfl)
      | false => exact absurd (.inl hw) hquit
  | closed b =>
      cases b with
      | true => exact .inr (.inr (.inl rfl))
      | false => exact absurd (.inr (.inl hw)) hquit
  | ended b =>
      cases b with
      | true => exact .inr (.inr (.inr rfl))
      | false => exact absurd (.inr (.inr hw)) hquit

theorem Inv.step {s s' : Service} {x : Step} (h : Inv s) (hs : step s x = some s')
    (hx : ¬ Strands s x) : Inv s' := by
  cases x with
  | work ok fds => exact h.work hs hx
  | start created =>
      simp only [Service.step] at hs
      split_ifs at hs with hstop hwork hcreated
      · cases hs
        exact h
      · cases hs
        have hnone : s.worker = .none := h.working.mp (by simpa using hwork)
        have hneg : s.eventFds.2 < 0 := by
          have := h.fd
          rwa [hnone] at this
        refine ⟨fun _ _ => trivial, ?_, by simp, h.event, by simp [Worker.Quit]⟩
        simpa [Worker.FdOk, InitPoint.hasFds] using hneg
      · cases hs
        exact h
  | stop =>
      simp only [Service.step] at hs
      split_ifs at hs with hstop hwork
      · cases hs
        have hjoin : s.stop ≠ .join := by
          rw [not_not.mp hstop]
          decide
        obtain ⟨he, hq⟩ := h.not_quit hjoin
        refine ⟨?_, h.fd, h.working, by simp [he], fun hq' => absurd hq' hq⟩
        intro _ hneg
        rcases h.initialising_or_failed hjoin hwork hneg with hinit | hfail
        · exact hinit
        · exact absurd ⟨hwork, hfail, hneg⟩ hx
      · cases hs
        exact h
  | poll =>
      simp only [Service.step] at hs
      split_ifs at hs with hstop hpos
      · cases hs
        have hjoin : s.stop ≠ .join := by
          rw [not_not.mp hstop]
          decide
        obtain ⟨he, hq⟩ := h.not_quit hjoin
        exact ⟨by simp [Awaited], h.fd, h.working, by simp [he], fun hq' => absurd hq' hq⟩
      · cases hs
        exact h
  | write =>
      simp only [Service.step] at hs
      split at hs
      · rename_i fd hfd
        split_ifs at hs with hopen
        cases hs
        refine ⟨by simp [Awaited], h.fd, h.working, ?_, fun _ => rfl⟩
        exact fun _ => ⟨rfl, hopen.2 ▸ hopen.1⟩
      · cases hs
  | join =>
      simp only [Service.step] at hs
      split at hs
      · rename_i b hjoin hended
        cases hs
        have hneg : s.eventFds.2 < 0 := by
          have := h.fd
          rwa [hended] at this
        refine ⟨by simp [Awaited], hneg, by simp, ?_, by simp [Worker.Quit]⟩
        intro he
        exact absurd (h.event he).2 (Int.not_le.mpr hneg)
      · cases hs

/-- A call that is stranded waits for a worker that has failed. -/
theorem not_awaited_of_strands {s s' : Service} {x : Step} (hs : step s x = some s')
    (hx : Strands s x) : ¬ s'.Awaited := by
  cases x with
  | stop =>
      obtain ⟨hwork, hfail, hneg⟩ := hx
      simp only [step, if_pos hwork] at hs
      split_ifs at hs
      cases hs
      intro hawait
      have hinit := hawait rfl hneg
      rcases hfail with hw | hw | hw
      all_goals
        simp only [hw] at hinit
        exact hinit
  | work ok fds =>
      obtain ⟨hstop, ⟨p, hw, hfail, rfl, hneg⟩ | hw⟩ := hx
      · simp only [step, work, hw, hfail] at hs
        cases hs
        intro hawait
        have hinit := hawait hstop hneg
        cases htun : p.inTunnel <;> simp [htun, Worker.Initialising] at hinit
      · simp only [step, work, hw] at hs
        cases hs
        intro hawait
        exact hawait hstop (show (-1 : Int) < 0 by decide)
  | start created => exact hx.elim
  | poll => exact hx.elim
  | write => exact hx.elim
  | join => exact hx.elim

/-- Over all calls and all outcomes of the workers, a call that stops waits for descriptors only
while the worker is on its way to them, exactly if no call is stranded by a failure of the worker. -/
theorem everyState_awaited_iff (xs : List Step) :
    EveryState step Awaited init xs ↔ EveryStep step (fun s x => ¬ Strands s x) init xs := by
  apply everyState_iff Inv
  · exact fun h => h.awaited
  · exact fun h hs hx => h.step hs hx
  · exact fun _ hs hx => not_awaited_of_strands hs hx
  · exact inv_init

/-- The configuration cannot be read, and the service is stopped: the call polls for ever, and no
other call gets the mutex. -/
theorem stop_after_failed_start :
    ∃ s, runSteps step init [.start true, .work false (0, 0), .stop] = some s ∧ ¬ s.Awaited ∧
      ∀ x s', step s x = some s' → s' = s := by
  refine ⟨_, rfl, ?_, ?_⟩
  · exact fun h => h rfl (by decide)
  · intro x s' hs
    cases x with
    | poll => exact (Option.some.inj hs).symm
    | start created => cases hs
    | stop => cases hs
    | write => cases hs
    | join => cases hs
    | work ok fds => cases hs

end Service

end HevTunnel
