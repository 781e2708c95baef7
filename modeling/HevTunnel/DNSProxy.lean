import HevTunnel.TaskMutex

/-! # The resolver thread

A task that resolves a name leaves the blocking call to a helper thread (`hev-task-dns-proxy.c`).  It
takes the mutex of the proxy, stores a pointer to its call, which lies on its own stack, and sends a
byte over a pair of sockets; the thread resolves the call in place and sends the byte back.  The task
waits for it, and may be woken up for other reasons.

`DNSProxy` is the proxy with the task system around it.  The thread runs beside the tasks, so its three
steps come between any two events of the tasks.  Two things are not in the code: `served`, the calls
that the thread has resolved, and `returned`, the calls that have returned.  `none` is a use of memory
that is not there, or `abort`.

Of the reactor we assume that the arrival of a byte makes it report the descriptor (`armed`) at a later
poll, and that a report wakes up the task of `sched_entity`.

`runs_resolved` is the result: each call gets its own answer, the thread uses a call only while its task
is in it, and no reply is missed.  It is about runs in which the pair of sockets fails with `EAGAIN` only.
The loops of a task and the write of the thread also end at the end of the stream and at any other error
(`PairAnswer.failed`); after such a read the call returns while the thread may still use it. -/

namespace HevTunnel

/-- `sched_entity.task` of the proxy. -/
inductive EntityTask (α : Type) where
  | null
  /-- The address of `dummy_task`, which is never woken up. -/
  | dummy
  | task (x : α)
deriving DecidableEq, Repr

/-- The task that a report wakes up. -/
def EntityTask.task? {α : Type} : EntityTask α → Option α
  | .task x => some x
  | _ => none

/-- Where the task that has the mutex is in `hev_task_dns_proxy_call`. -/
inductive CallPhase where
  /-- No task has the mutex. -/
  | idle
  | locked
  /-- The call and the task are stored. -/
  | stored
  /-- The byte is written. -/
  | asked
deriving DecidableEq, Repr

/-- Where the thread is in `hev_task_dns_server_handler`. -/
inductive ServerPhase where
  | idle
  /-- It has read a byte. -/
  | busy
  /-- It has stored the result. -/
  | done
deriving DecidableEq, Repr

/-- The request that the thread works on. -/
def ServerPhase.count : ServerPhase → ℕ
  | idle => 0
  | _ => 1

/-- `HevTaskDNSCallGetAddrInfo` and `HevTaskDNSCallGetNameInfo`: the arguments, and what the resolver
returns. -/
structure DNSCall (β γ : Type) where
  args : β
  result : Option γ
deriving DecidableEq, Repr

/-- What `read` or `write` of a byte answers at an end of the pair of sockets. -/
inductive PairAnswer where
  | byte
  /-- `EAGAIN`. -/
  | again
  /-- The end of the stream, or another error. -/
  | failed
deriving DecidableEq, Repr

/-- `HevTaskDNSProxy`.  A call is named by the task on whose stack it lies; `frames` are the calls that
exist. -/
structure DNSProxy (Q α β γ : Type) where
  mutex : MutexSystem Q α
  phase : CallPhase
  call : Option α
  entity : EntityTask α
  /-- The bytes on their way to the thread. -/
  requests : ℕ
  /-- The bytes on their way back. -/
  replies : ℕ
  server : ServerPhase
  frames : α → Option (DNSCall β γ)
  /-- Whether the reactor has a report of the descriptor. -/
  armed : Bool
  served : List (β × γ)
  returned : List (DNSCall β γ)

/-- What happens.  `polls` are the answers of the reactor if a task has to wait, and `report` is whether
they report the descriptor of the proxy. -/
inductive DNSEvent (α β γ : Type) where
  /-- The current task calls `hev_task_dns_proxy_call`. -/
  | call (args : β) (polls : List (List α)) (report : Bool)
  /-- The current task goes on in `hev_task_mutex_lock`. -/
  | resume (polls : List (List α)) (report : Bool)
  /-- The task that has the mutex stores its call and itself. -/
  | store
  /-- It tries to write the byte. -/
  | write (answer : PairAnswer) (polls : List (List α)) (report : Bool)
  /-- It tries to read the byte. -/
  | read (answer : PairAnswer) (polls : List (List α)) (report : Bool)
  /-- The thread tries to read a byte. -/
  | take (answer : PairAnswer)
  /-- The thread resolves the call. -/
  | serve (result : γ)
  /-- The thread tries to write the byte. -/
  | reply (answer : PairAnswer)
  /-- The descriptor becomes ready for another reason. -/
  | edge
  /-- Anything else. -/
  | other (e : SchedEvent α) (report : Bool)

namespace DNSProxy

variable {Q α β γ : Type} [DecidableEq α] [ReadyQueue Q α]

/-- `hev_task_dns_proxy_new` and the first call up to the mutex, which is free.  The descriptor is ready
for writing. -/
def start (s : TaskSystem Q α) (c : α) (args : β) : DNSProxy Q α β γ where
  mutex := (MutexSystem.init s).enter c
  phase := .locked
  call := none
  entity := .null
  requests := 0
  replies := 0
  server := .idle
  frames := Function.update (fun _ => none) c (some ⟨args, none⟩)
  armed := true
  served := []
  returned := []

/-- An event of the tasks. -/
def advance (p : DNSProxy Q α β γ) (e : MutexEvent α) (report : Bool) : Option (DNSProxy Q α β γ) :=
  -- a report follows the pointer to the task
  if report = true ∧ p.entity = .null then none
  else (p.mutex.exec e).map fun m => { p with mutex := m, armed := p.armed && !report }

/-- `hev_task_mutex_lock` returns, or the task waits. -/
def afterLock (p : DNSProxy Q α β γ) (c : α) : DNSProxy Q α β γ :=
  if p.mutex.stage c = .inside then { p with phase := .locked } else p

/-- `hev_task_yield (HEV_TASK_WAITIO)`. -/
def yield (p : DNSProxy Q α β γ) (polls : List (List α)) (report : Bool) :
    Option (DNSProxy Q α β γ) :=
  p.advance (.other (.leave .waitio polls)) report

/-- The call of the task is over. -/
def retire (p : DNSProxy Q α β γ) (c : α) (f : DNSCall β γ) : DNSProxy Q α β γ :=
  { p with
    entity := .dummy
    phase := .idle
    frames := Function.update p.frames c none
    returned := p.returned ++ [f] }

/-- The end of `hev_task_dns_proxy_call` after its loops. -/
def finish (p : DNSProxy Q α β γ) (c : α) : Option (DNSProxy Q α β γ) :=
  (p.frames c).bind fun f => (p.retire c f).advance .unlock false

/-- The result is stored in a call. -/
def resolve (p : DNSProxy Q α β γ) (x : α) (f : DNSCall β γ) (result : γ) : DNSProxy Q α β γ :=
  { p with
    frames := Function.update p.frames x (some { f with result := some result })
    server := .done
    served := p.served ++ [(f.args, result)] }

/-- `hev_task_dns_server_getaddrinfo` and `hev_task_dns_server_getnameinfo` for `proxy->call`. -/
def serve (p : DNSProxy Q α β γ) (result : γ) : Option (DNSProxy Q α β γ) :=
  p.call.bind fun x => (p.frames x).map fun f => p.resolve x f result

def exec (p : DNSProxy Q α β γ) : DNSEvent α β γ → Option (DNSProxy Q α β γ)
  | .call args polls report => p.mutex.sched.currentTask.bind fun c =>
      ({ p with frames := Function.update p.frames c (some ⟨args, none⟩) }.advance (.lock polls)
        report).map (afterLock · c)
  | .resume polls report => p.mutex.sched.currentTask.bind fun c =>
      (p.advance (.resume polls) report).map (afterLock · c)
  | .store => p.mutex.sched.currentTask.map fun c =>
      { p with call := some c, entity := .task c, phase := .stored }
  | .write .byte _ _ => some { p with requests := p.requests + 1, phase := .asked }
  | .write .again polls report => p.yield polls report
  | .write .failed _ _ => some { p with phase := .asked }
  | .read .byte _ _ => p.mutex.sched.currentTask.bind { p with replies := p.replies - 1 }.finish
  | .read .again polls report => p.yield polls report
  | .read .failed _ _ => p.mutex.sched.currentTask.bind p.finish
  | .take .byte => some { p with requests := p.requests - 1, server := .busy }
  -- the handler returns
  | .take _ => some p
  | .serve result => p.serve result
  | .reply .byte => some { p with replies := p.replies + 1, server := .idle, armed := true }
  -- it polls, and tries again
  | .reply .again => some p
  | .reply .failed => some { p with server := .idle }
  | .edge => some { p with armed := true }
  | .other e report => p.advance (.other e) report

/-- A report needs something to report, and wakes up the task of `sched_entity`. -/
def Reports (p : DNSProxy Q α β γ) (e : MutexEvent α) (report : Bool) : Prop :=
  report = true → p.armed = true ∧
    ∀ x ∈ p.entity.task?, ∀ m ∈ p.mutex.exec e, m.sched.state x = some .running

instance (p : DNSProxy Q α β γ) (e : MutexEvent α) (report : Bool) : Decidable (p.Reports e report) :=
  inferInstanceAs (Decidable (_ → _ ∧ ∀ x ∈ p.entity.task?, ∀ m ∈ p.mutex.exec e, _))

/-- The task that has the mutex runs. -/
def Holder (p : DNSProxy Q α β γ) : Prop :=
  ∃ c ∈ p.mutex.sched.currentTask, p.mutex.stage c = .inside

instance (p : DNSProxy Q α β γ) : Decidable p.Holder :=
  inferInstanceAs (Decidable (∃ c ∈ p.mutex.sched.currentTask, _))

end DNSProxy

/-- An answer of the pair that ends a loop without a byte.  When a read of the thread fails, nothing has
happened yet. -/
def DNSEvent.fails {α β γ : Type} : DNSEvent α β γ → Bool
  | .write .failed _ _ => true
  | .read .failed _ _ => true
  | .reply .failed => true
  | _ => false

/-- When an event can happen.  A socket is full only if there are bytes in it. -/
def DNSEvent.Possible {Q α β γ : Type} [DecidableEq α] [ReadyQueue Q α] (p : DNSProxy Q α β γ) :
    DNSEvent α β γ → Prop
  | .call _ polls report => (MutexEvent.lock polls).Possible p.mutex ∧ p.Reports (.lock polls) report
  | .resume polls report =>
      (MutexEvent.resume polls).Possible p.mutex ∧ p.Reports (.resume polls) report
  | .store => p.Holder ∧ p.phase = .locked
  | .write answer polls report => p.Holder ∧ p.phase = .stored ∧ (answer = .again → p.requests ≠ 0 ∧
      (SchedEvent.leave .waitio polls).Possible p.mutex.sched ∧
      p.Reports (.other (.leave .waitio polls)) report)
  | .read answer polls report => p.Holder ∧ p.phase = .asked ∧ (answer = .byte → p.replies ≠ 0) ∧
      (answer = .again → p.replies = 0 ∧ (SchedEvent.leave .waitio polls).Possible p.mutex.sched ∧
        p.Reports (.other (.leave .waitio polls)) report)
  | .take answer => p.server = .idle ∧ (answer = .byte → p.requests ≠ 0)
  | .serve _ => p.server = .busy
  | .reply answer => p.server = .done ∧ (answer = .again → p.replies ≠ 0)
  | .edge => True
  | .other e report => e.Possible p.mutex.sched ∧
      (∀ c ∈ p.mutex.sched.currentTask, p.mutex.stage c = .outside) ∧ p.Reports (.other e) report

instance DNSEvent.decidablePossible {Q α β γ : Type} [DecidableEq α] [ReadyQueue Q α]
    (p : DNSProxy Q α β γ) : (e : DNSEvent α β γ) → Decidable (e.Possible p)
  | .call _ _ _ => inferInstanceAs (Decidable (_ ∧ _))
  | .resume _ _ => inferInstanceAs (Decidable (_ ∧ _))
  | .store => inferInstanceAs (Decidable (_ ∧ _))
  | .write _ _ _ => inferInstanceAs (Decidable (_ ∧ _ ∧ (_ → _ ∧ _ ∧ _)))
  | .read _ _ _ => inferInstanceAs (Decidable (_ ∧ _ ∧ (_ → _) ∧ (_ → _ ∧ _ ∧ _)))
  | .take _ => inferInstanceAs (Decidable (_ ∧ (_ → _)))
  | .serve _ => inferInstanceAs (Decidable (p.server = .busy))
  | .reply _ => inferInstanceAs (Decidable (_ ∧ (_ → _)))
  | .edge => inferInstanceAs (Decidable True)
  | .other _ _ =>
      inferInstanceAs (Decidable (_ ∧ (∀ c ∈ p.mutex.sched.currentTask, _) ∧ _))

/-! ### What an event does to the mutex -/

namespace MutexSystem

variable {Q α : Type} [DecidableEq α] [ReadyQueue Q α] {m m' : MutexSystem Q α} {c : α}
  {polls : List (List α)}

theorem lock_cases (hc : m.sched.currentTask = some c) (h : m.exec (.lock polls) = some m') :
    m.locker = false ∧ m' = m.enter c ∨
      m.locker = true ∧ ∃ s, m' = { m.push c with sched := s } := by
  rw [exec, lock, hc, Option.bind_some] at h
  cases hlock : m.locker with
  | false =>
      rw [if_neg (by simp [hlock])] at h
      exact .inl ⟨rfl, (Option.some_inj.mp h).symm⟩
  | true =>
      rw [if_pos hlock] at h
      obtain ⟨s, -, rfl⟩ := Option.map_eq_some_iff.mp h
      exact .inr ⟨rfl, s, rfl⟩

theorem resume_cases (hc : m.sched.currentTask = some c) (h : m.exec (.resume polls) = some m') :
    (∃ s, m' = { m with sched := s }) ∨ m.locker = false ∧ m'.locker = true ∧
      m'.sched = m.sched ∧ m'.stage = Function.update m.stage c .inside := by
  rw [exec, resume, hc, Option.bind_some] at h
  split_ifs at h with hb
  · obtain ⟨s, -, rfl⟩ := Option.map_eq_some_iff.mp h
    exact .inl ⟨s, rfl⟩
  · obtain ⟨next, -, rfl⟩ := Option.map_eq_some_iff.mp h
    exact .inr ⟨by simpa using (not_or.mp hb).1, rfl, rfl, rfl⟩

theorem unlock_cases (hc : m.sched.currentTask = some c) (h : m.exec .unlock = some m') :
    ∃ s, m' = { m.release c with sched := s } := by
  rw [exec, unlock, hc, Option.bind_some, wakeFirst] at h
  cases hw : (m.release c).waiters with
  | none =>
      simp only [hw, Option.some_inj] at h
      exact ⟨_, h.symm⟩
  | some x =>
      simp only [hw] at h
      obtain ⟨_, -, h⟩ := Option.bind_eq_some_iff.mp h
      obtain ⟨s, -, rfl⟩ := Option.map_eq_some_iff.mp h
      exact ⟨s, rfl⟩

theorem other_cases {e : SchedEvent α} (h : m.exec (.other e) = some m') :
    ∃ s, m' = { m with sched := s } := by
  obtain ⟨s, -, rfl⟩ := Option.map_eq_some_iff.mp h
  exact ⟨s, rfl⟩

/-- A task that can run and is not the current one can still run. -/
theorem Inv.running [LawfulReadyQueue Q] {xs : List α} {e : MutexEvent α} {x : α} (h : Inv m xs)
    (hp : e.Possible m) (hexec : m.exec e = some m') (hx : m.sched.state x = some .running)
    (hne : m.sched.currentTask ≠ some x) : m'.sched.state x = some .running := by
  have hsets : e.Sets fun _ => True := by
    cases e with
    | other e => cases e <;> trivial
    | _ => trivial
  rcases h.sched_event hp hsets hexec with hsame | ⟨e', hp', -, hs⟩
  · rwa [hsame]
  · obtain ⟨s, hs', -, -, hrun, -⟩ := h.sched.exec hp'
    obtain rfl := Option.some_inj.mp (hs'.symm.trans hs)
    exact hrun x hx fun _ _ _ => hne

end MutexSystem

/-! ### The invariant -/

namespace DNSProxy

variable {Q α β γ : Type} [DecidableEq α] [ReadyQueue Q α] [LawfulReadyQueue Q]
  {p : DNSProxy Q α β γ} {c : α}

/-- The thread has stored the result of the call. -/
def Answered (p : DNSProxy Q α β γ) : Prop := p.server = .done ∨ p.replies ≠ 0

/-- The calls that the thread has resolved, as they return. -/
def answers (p : DNSProxy Q α β γ) : List (DNSCall β γ) :=
  p.served.map fun a => ⟨a.1, some a.2⟩

omit [DecidableEq α] [ReadyQueue Q α] [LawfulReadyQueue Q] in
theorem not_holder (hc : p.mutex.sched.currentTask = some c) (hne : p.mutex.stage c ≠ .inside) :
    ¬ p.Holder := by
  rintro ⟨x, hx, hin⟩
  obtain rfl := Option.some_inj.mp (hc.symm.trans hx)
  exact hne hin

omit [DecidableEq α] [ReadyQueue Q α] [LawfulReadyQueue Q] in
theorem afterLock_inside (h : p.mutex.stage c = .inside) :
    p.afterLock c = { p with phase := .locked } := if_pos h

omit [DecidableEq α] [ReadyQueue Q α] [LawfulReadyQueue Q] in
theorem afterLock_waiting (h : p.mutex.stage c = .waiting) : p.afterLock c = p :=
  if_neg (by simp [h])

/-- What holds at every event. -/
structure Inv (p : DNSProxy Q α β γ) : Prop where
  mutex : ∃ xs, p.mutex.Inv xs
  idle_iff : p.phase = .idle ↔ p.mutex.locker = false
  frames_iff : ∀ x, p.frames x = none ↔ p.mutex.stage x = .outside
  /-- Up to the byte the task that has the mutex does not give the processor back. -/
  current : p.phase = .locked ∨ p.phase = .stored → p.Holder
  null : p.entity = .null → p.phase = .locked
  owner : p.phase = .stored ∨ p.phase = .asked → ∀ x, p.mutex.stage x = .inside →
    p.call = some x ∧ p.entity = .task x
  quiet : p.phase ≠ .asked → p.requests = 0 ∧ p.replies = 0 ∧ p.server = .idle
  asked : p.phase = .asked → p.requests + p.replies + p.server.count = 1
  fresh : ∀ x f, p.frames x = some f → p.mutex.stage x ≠ .inside ∨ ¬ p.Answered → f.result = none
  log : ¬ p.Answered → p.answers = p.returned
  log_answered : p.Answered → ∀ x f, p.mutex.stage x = .inside → p.frames x = some f →
    p.answers = p.returned ++ [f]
  awake : p.replies ≠ 0 → ∀ x, p.mutex.stage x = .inside →
    p.mutex.sched.state x = some .running ∨ p.armed = true

namespace Inv

theorem not_answered (h : p.Inv) (hphase : p.phase ≠ .asked) : ¬ p.Answered := by
  obtain ⟨-, hreplies, hserver⟩ := h.quiet hphase
  simp [Answered, hreplies, hserver]

theorem exists_inside (h : p.Inv) (hphase : p.phase ≠ .idle) : ∃ x, p.mutex.stage x = .inside := by
  obtain ⟨xs, hm⟩ := h.mutex
  have hlock : p.mutex.locker ≠ false := mt h.idle_iff.mpr hphase
  exact hm.locked.mp (by simpa using hlock)

/-- The holder is the only task inside. -/
theorem eq_of_inside (h : p.Inv) {x y : α} (hx : p.mutex.stage x = .inside)
    (hy : p.mutex.stage y = .inside) : x = y := by
  obtain ⟨xs, hm⟩ := h.mutex
  exact hm.unique x y hx hy

/-- The call of a task inside exists. -/
theorem exists_frame (h : p.Inv) {x : α} (hx : p.mutex.stage x = .inside) :
    ∃ f, p.frames x = some f := by
  refine Option.ne_none_iff_exists'.mp fun hnone => ?_
  rw [h.frames_iff, hx] at hnone
  cases hnone

/-- If another task runs, nobody is on the way to the byte. -/
theorem resting (h : p.Inv) (hcur : ¬ p.Holder) : p.phase = .idle ∨ p.phase = .asked := by
  have hnot := mt h.current hcur
  cases hphase : p.phase <;> simp [hphase] at hnot ⊢

/-- What other tasks do, and the holder while it waits. -/
theorem tasks {m : MutexSystem Q α} {xs : List α} {frames : α → Option (DNSCall β γ)} {armed : Bool}
    (h : p.Inv) (hm : m.Inv xs) (hlock : m.locker = p.mutex.locker)
    (hphase : p.phase = .idle ∨ p.phase = .asked)
    (hin : ∀ x, m.stage x = .inside ↔ p.mutex.stage x = .inside)
    (hnone : ∀ x, frames x = none ↔ m.stage x = .outside)
    (hsame : ∀ x, p.mutex.stage x = .inside → frames x = p.frames x)
    (hfresh : ∀ x f, frames x = some f → m.stage x ≠ .inside → f.result = none)
    (hawake : p.replies ≠ 0 → ∀ x, m.stage x = .inside →
      m.sched.state x = some .running ∨ armed = true) :
    Inv { p with mutex := m, frames := frames, armed := armed } where
  mutex := ⟨xs, hm⟩
  idle_iff := by rw [hlock]; exact h.idle_iff
  frames_iff := hnone
  current hp := by
    rcases hphase with hphase | hphase <;> simp [hphase] at hp
  null := h.null
  owner hp x hx := h.owner hp x ((hin x).mp hx)
  quiet := h.quiet
  asked := h.asked
  fresh x f hf hor := by
    by_cases hx : m.stage x = .inside
    · have hx' := (hin x).mp hx
      have hf' : p.frames x = some f := (hsame x hx').symm.trans hf
      exact h.fresh x f hf' (.inr (hor.resolve_left (not_not.mpr hx)))
    · exact hfresh x f hf hx
  log := h.log
  log_answered ha x f hx hf := by
    have hx' := (hin x).mp hx
    exact h.log_answered ha x f hx' ((hsame x hx').symm.trans hf)
  awake := hawake

/-- The current task takes the mutex. -/
theorem entered {m : MutexSystem Q α} {xs : List α} {frames : α → Option (DNSCall β γ)} {armed : Bool}
    (h : p.Inv) (hm : m.Inv xs) (hfree : p.mutex.locker = false) (hlock : m.locker = true)
    (hc : m.sched.currentTask = some c) (hin : m.stage c = .inside)
    (hnone : ∀ x, frames x = none ↔ m.stage x = .outside)
    (hfresh : ∀ x f, frames x = some f → f.result = none) :
    Inv { p with mutex := m, frames := frames, armed := armed, phase := .locked } := by
  have hidle : p.phase ≠ .asked := by simp [h.idle_iff.mpr hfree]
  have hquiet := h.quiet hidle
  have hans := h.not_answered hidle
  exact {
    mutex := ⟨xs, hm⟩
    idle_iff := by simp [hlock]
    frames_iff := hnone
    current := fun _ => ⟨c, hc, hin⟩
    null := fun _ => rfl
    owner := by simp
    quiet := fun _ => hquiet
    asked := by simp
    fresh := fun x f hf _ => hfresh x f hf
    log := fun _ => h.log hans
    log_answered := fun ha => absurd ha hans
    awake := fun hr => absurd hquiet.2.1 hr }

/-! ### The events -/

/-- Before the task is stored nothing is reported. -/
theorem entity_ne_null (h : p.Inv) (hphase : p.phase = .idle ∨ p.phase = .asked) :
    p.entity ≠ .null := by
  intro hnull
  rcases hphase with hphase | hphase <;> simp [h.null hnull] at hphase

omit [LawfulReadyQueue Q] in
theorem advance_eq {e : MutexEvent α} {m : MutexSystem Q α} (hne : p.entity ≠ .null)
    (hm : p.mutex.exec e = some m) (report : Bool) :
    p.advance e report = some { p with mutex := m, armed := p.armed && !report } := by
  unfold advance
  rw [if_neg fun hor => hne hor.2, hm, Option.map_some]

/-- A reply is not missed while another task runs. -/
theorem awake_exec {e : MutexEvent α} {m : MutexSystem Q α} {report : Bool} (h : p.Inv)
    (hp : e.Possible p.mutex) (hm : p.mutex.exec e = some m) (hrep : p.Reports e report)
    (hcur : ¬ p.Holder) (hr : p.replies ≠ 0) {x : α} (hx : p.mutex.stage x = .inside) :
    m.sched.state x = some .running ∨ (p.armed && !report) = true := by
  obtain ⟨xs, hinv⟩ := h.mutex
  rcases h.awake hr x hx with hrun | harmed
  · exact .inl (hinv.running hp hm hrun fun hc => hcur ⟨x, hc, hx⟩)
  · cases report with
    | false => exact .inr (by simp [harmed])
    | true =>
        have hasked : p.phase = .asked := by
          by_contra hne
          exact hr (h.quiet hne).2.1
        have hentity := (h.owner (.inr hasked) x hx).2
        exact .inl ((hrep rfl).2 x (by simp [hentity, EntityTask.task?]) m hm)

/-- An event of the task system by a task that is not in the proxy. -/
theorem other {e : SchedEvent α} {report : Bool} (h : p.Inv) (hp : e.Possible p.mutex.sched)
    (hcur : ∀ c ∈ p.mutex.sched.currentTask, p.mutex.stage c = .outside)
    (hrep : p.Reports (.other e) report) :
    ∃ p', p.advance (.other e) report = some p' ∧ p'.Inv := by
  obtain ⟨xs, hinv⟩ := h.mutex
  have hp' : (MutexEvent.other e).Possible p.mutex :=
    ⟨hp, fun c hc => ⟨by simp [hcur c hc], fun _ => hcur c hc⟩⟩
  have hnot : ¬ p.Holder := by
    rintro ⟨c, hc, hin⟩
    simp [hcur c hc] at hin
  have hphase := h.resting hnot
  obtain ⟨m, xs', hm, hinv'⟩ := hinv.exec hp'
  have hawake := fun hr x => h.awake_exec hp' hm hrep hnot hr (x := x)
  obtain ⟨s, rfl⟩ := MutexSystem.other_cases hm
  refine ⟨_, advance_eq (h.entity_ne_null hphase) hm report, ?_⟩
  exact h.tasks hinv' rfl hphase (fun _ => Iff.rfl) h.frames_iff (fun _ _ => rfl)
    (fun x f hf hx => h.fresh x f hf (.inl hx)) hawake

/-- The holder waits for its reply. -/
theorem yield {polls : List (List α)} {report : Bool} (h : p.Inv) (hphase : p.phase = .asked)
    (hhold : p.Holder) (hzero : p.replies = 0)
    (hp : (SchedEvent.leave .waitio polls).Possible p.mutex.sched) :
    ∃ p', p.yield polls report = some p' ∧ p'.Inv := by
  obtain ⟨xs, hinv⟩ := h.mutex
  obtain ⟨c, hc, hin⟩ := hhold
  have hp' : (MutexEvent.other (.leave .waitio polls)).Possible p.mutex := by
    refine ⟨hp, fun x hx => ?_⟩
    obtain rfl := Option.some_inj.mp (hc.symm.trans hx)
    exact ⟨by simp [hin], by simp [SchedEvent.ends]⟩
  obtain ⟨m, xs', hm, hinv'⟩ := hinv.exec hp'
  obtain ⟨s, rfl⟩ := MutexSystem.other_cases hm
  refine ⟨_, advance_eq (h.entity_ne_null (.inr hphase)) hm report, ?_⟩
  exact h.tasks hinv' rfl (.inr hphase) (fun _ => Iff.rfl) h.frames_iff (fun _ _ => rfl)
    (fun x f hf hx => h.fresh x f hf (.inl hx)) fun hr => absurd hzero hr

/-- A call begins: its task gets the mutex or waits for it. -/
theorem call {args : β} {polls : List (List α)} {report : Bool} (h : p.Inv)
    (hp : (MutexEvent.lock polls).Possible p.mutex) (hrep : p.Reports (.lock polls) report) :
    ∃ p', p.exec (.call args polls report) = some p' ∧ p'.Inv := by
  obtain ⟨xs, hinv⟩ := h.mutex
  obtain ⟨m, xs', hm, hinv'⟩ := hinv.exec hp
  obtain ⟨c, hc, hout, -⟩ := id hp
  have hnot : ¬ p.Holder := not_holder hc (by simp [hout])
  have hphase := h.resting hnot
  have hawake := fun hr x => h.awake_exec hp hm hrep hnot hr (x := x)
  have hne := h.entity_ne_null hphase
  have hadv := advance_eq (p := { p with frames := Function.update p.frames c (some ⟨args, none⟩) })
    hne hm report
  -- the new call has no result yet
  have hnew : ∀ x f, Function.update p.frames c (some ⟨args, none⟩) x = some f →
      f.result = none ∨ x ≠ c ∧ p.frames x = some f := by
    intro x f hf
    by_cases hx : x = c
    · rw [hx, Function.update_self, Option.some_inj] at hf
      exact .inl (by rw [← hf])
    · exact .inr ⟨hx, by rwa [Function.update_of_ne hx] at hf⟩
  rw [exec, hc, Option.bind_some, hadv, Option.map_some]
  refine ⟨_, rfl, ?_⟩
  rcases MutexSystem.lock_cases hc hm with ⟨hfree, rfl⟩ | ⟨hlock, s, rfl⟩
  · have hans := h.not_answered (by simp [h.idle_iff.mpr hfree])
    have hin : (p.mutex.enter c).stage c = .inside := Function.update_self ..
    rw [afterLock_inside (by exact hin)]
    refine h.entered hinv' hfree rfl hc hin ?_ ?_
    · intro x
      by_cases hx : x = c
      · simp [MutexSystem.enter, hx]
      · simp [MutexSystem.enter, hx, h.frames_iff]
    · intro x f hf
      rcases hnew x f hf with hnone | ⟨-, hf⟩
      · exact hnone
      · exact h.fresh x f hf (.inr hans)
  · have hwait : (p.mutex.push c).stage c = .waiting := Function.update_self ..
    rw [afterLock_waiting (by exact hwait)]
    refine h.tasks hinv' rfl hphase ?_ ?_ ?_ ?_ ?_
    · intro x
      by_cases hx : x = c
      · simp [MutexSystem.push, hx, hout]
      · simp [MutexSystem.push, hx]
    · intro x
      by_cases hx : x = c
      · simp [MutexSystem.push, hx]
      · simp [MutexSystem.push, hx, h.frames_iff]
    · intro x hx
      have hxc : x ≠ c := by
        rintro rfl
        simp [hout] at hx
      exact Function.update_of_ne hxc ..
    · intro x f hf hx
      rcases hnew x f hf with hnone | ⟨hxc, hf⟩
      · exact hnone
      · exact h.fresh x f hf (.inl (by simpa [MutexSystem.push, hxc] using hx))
    · intro hr x hx
      have hxc : x ≠ c := by
        rintro rfl
        simp [MutexSystem.push] at hx
      exact hawake hr x (by simpa [MutexSystem.push, hxc] using hx)

/-- A task goes on in `hev_task_mutex_lock`. -/
theorem resume {polls : List (List α)} {report : Bool} (h : p.Inv)
    (hp : (MutexEvent.resume polls).Possible p.mutex) (hrep : p.Reports (.resume polls) report) :
    ∃ p', p.exec (.resume polls report) = some p' ∧ p'.Inv := by
  obtain ⟨xs, hinv⟩ := h.mutex
  obtain ⟨m, xs', hm, hinv'⟩ := hinv.exec hp
  obtain ⟨c, hc, hwait, -⟩ := id hp
  have hnot : ¬ p.Holder := not_holder hc (by simp [hwait])
  have hphase := h.resting hnot
  have hawake := fun hr x => h.awake_exec hp hm hrep hnot hr (x := x)
  rw [exec, hc, Option.bind_some, advance_eq (h.entity_ne_null hphase) hm report, Option.map_some]
  refine ⟨_, rfl, ?_⟩
  rcases MutexSystem.resume_cases hc hm with ⟨s, rfl⟩ | ⟨hfree, hlock, hsched, hstage⟩
  · rw [afterLock_waiting (by exact hwait)]
    exact h.tasks hinv' rfl hphase (fun _ => Iff.rfl) h.frames_iff (fun _ _ => rfl)
      (fun x f hf hx => h.fresh x f hf (.inl hx)) hawake
  · have hans := h.not_answered (by simp [h.idle_iff.mpr hfree])
    have hin : m.stage c = .inside := by rw [hstage, Function.update_self]
    rw [afterLock_inside (by exact hin)]
    refine h.entered hinv' hfree hlock (hsched ▸ hc) hin ?_ fun x f hf => h.fresh x f hf (.inr hans)
    intro x
    by_cases hx : x = c
    · simp [hx, h.frames_iff, hwait, hin]
    · simp [hstage, hx, h.frames_iff]

theorem store (h : p.Inv) (hc : p.mutex.sched.currentTask = some c)
    (hin : p.mutex.stage c = .inside) (hphase : p.phase = .locked) :
    Inv { p with call := some c, entity := .task c, phase := .stored } := by
  have hne : p.phase ≠ .asked := by simp [hphase]
  have hlock : p.mutex.locker ≠ false := mt h.idle_iff.mpr (by simp [hphase])
  exact { h with
    idle_iff := by simp [hlock]
    current := fun _ => ⟨c, hc, hin⟩
    null := by simp
    owner := by
      intro _ x hx
      rw [h.eq_of_inside hx hin]
      exact ⟨rfl, rfl⟩
    quiet := fun _ => h.quiet hne
    asked := by simp }

/-- The socket takes the byte: there is no other in it. -/
theorem write (h : p.Inv) (hphase : p.phase = .stored) :
    Inv { p with requests := p.requests + 1, phase := .asked } := by
  have hne : p.phase ≠ .asked := by simp [hphase]
  have hlock : p.mutex.locker ≠ false := mt h.idle_iff.mpr (by simp [hphase])
  obtain ⟨hrequests, hreplies, hserver⟩ := h.quiet hne
  exact { h with
    idle_iff := by simp [hlock]
    current := by simp
    null := fun hnull => absurd (h.null hnull) (by simp [hphase])
    owner := fun _ => h.owner (.inl hphase)
    quiet := by simp
    asked := fun _ => by simp [hrequests, hreplies, hserver, ServerPhase.count] }

/-- The call returns with its answer. -/
theorem finish (h : p.Inv) (hc : p.mutex.sched.currentTask = some c)
    (hin : p.mutex.stage c = .inside) (hphase : p.phase = .asked) (hr : p.replies ≠ 0) :
    ∃ p', { p with replies := p.replies - 1 }.finish c = some p' ∧ p'.Inv := by
  obtain ⟨xs, hinv⟩ := h.mutex
  have hasked := h.asked hphase
  have hans : p.Answered := .inr hr
  obtain ⟨f, hf⟩ := h.exists_frame hin
  have hlog := h.log_answered hans c f hin hf
  obtain ⟨m, xs', hm, hinv'⟩ := hinv.exec (e := .unlock) ⟨c, hc, hin⟩
  have hadv := advance_eq (p := retire { p with replies := p.replies - 1 } c f) (by simp [retire]) hm false
  unfold DNSProxy.finish
  rw [hf, Option.bind_some, hadv]
  refine ⟨_, rfl, ?_⟩
  obtain ⟨s, rfl⟩ := MutexSystem.unlock_cases hc hm
  have hserver : p.server = .idle := by
    cases hs : p.server <;> simp only [hs, ServerPhase.count] at hasked <;> first | rfl | omega
  have hrest : p.requests = 0 ∧ p.replies - 1 = 0 := by omega
  have hstage : ∀ x, Function.update p.mutex.stage c .outside x ≠ .inside := by
    intro x hx
    by_cases hxc : x = c
    · simp [hxc] at hx
    · rw [Function.update_of_ne hxc] at hx
      exact hxc (h.eq_of_inside hx hin)
  exact {
    mutex := ⟨xs', hinv'⟩
    idle_iff := by simp [retire, MutexSystem.release]
    frames_iff := by
      intro x
      by_cases hxc : x = c
      · simp [retire, MutexSystem.release, hxc]
      · simp [retire, MutexSystem.release, hxc, h.frames_iff]
    current := by simp [retire]
    null := by simp [retire]
    owner := by simp [retire]
    quiet := fun _ => ⟨hrest.1, hrest.2, hserver⟩
    asked := by simp [retire]
    fresh := by
      intro x g hg _
      by_cases hxc : x = c
      · simp [retire, hxc] at hg
      · have hg' : p.frames x = some g := by simpa [retire, hxc] using hg
        exact h.fresh x g hg' (.inl fun hx => hxc (h.eq_of_inside hx hin))
    log := fun _ => hlog
    log_answered := fun _ x _ hx => absurd hx (hstage x)
    awake := fun _ x hx => absurd hx (hstage x) }

/-- A byte on its way to the thread comes from a call. -/
theorem phase_of_ne (h : p.Inv) (hne : ¬ (p.requests = 0 ∧ p.replies = 0 ∧ p.server = .idle)) :
    p.phase = .asked := by
  by_contra hphase
  exact hne (h.quiet hphase)

theorem take (h : p.Inv) (hidle : p.server = .idle) (hreq : p.requests ≠ 0) :
    Inv { p with requests := p.requests - 1, server := .busy } := by
  have hphase := h.phase_of_ne fun hq => hreq hq.1
  have hasked := h.asked hphase
  simp only [hidle, ServerPhase.count] at hasked
  have hzero : p.replies = 0 := by omega
  have hans : ¬ p.Answered := by simp [Answered, hidle, hzero]
  exact { h with
    quiet := fun hne => absurd hphase hne
    asked := fun _ => by simp only [ServerPhase.count]; omega
    fresh := fun x f hf _ => h.fresh x f hf (.inr hans)
    log := fun _ => h.log hans
    log_answered := fun ha => by simp [Answered, hzero] at ha }

/-- The thread finds the call, and it is the one of the task that has the mutex. -/
theorem serve {result : γ} (h : p.Inv) (hbusy : p.server = .busy) :
    ∃ p', p.serve result = some p' ∧ p'.Inv := by
  have hphase := h.phase_of_ne fun hq => by simp [hbusy] at hq
  have hasked := h.asked hphase
  simp only [hbusy, ServerPhase.count] at hasked
  have hzero : p.replies = 0 := by omega
  have hans : ¬ p.Answered := by simp [Answered, hbusy, hzero]
  obtain ⟨x, hx⟩ := h.exists_inside (by simp [hphase])
  obtain ⟨hcall, -⟩ := h.owner (.inr hphase) x hx
  obtain ⟨f, hf⟩ := h.exists_frame hx
  unfold DNSProxy.serve
  rw [hcall, Option.bind_some, hf, Option.map_some]
  refine ⟨_, rfl, { h with
    frames_iff := ?_, quiet := fun hne => absurd hphase hne, asked := ?_, fresh := ?_,
    log := fun hno => absurd (.inl rfl) hno, log_answered := ?_ }⟩
  · intro y
    by_cases hy : y = x
    · simp [resolve, hy, hx]
    · simp [resolve, hy, h.frames_iff]
  · intro _
    simp only [resolve, ServerPhase.count]
    omega
  · intro y g hg hor
    rcases hor with hout | hno
    · have hyx : y ≠ x := fun heq => hout (heq ▸ hx)
      have hg' : p.frames y = some g := by simpa [resolve, hyx] using hg
      exact h.fresh y g hg' (.inl hout)
    · exact absurd (.inl rfl) hno
  · intro _ y g hy hg
    obtain rfl := h.eq_of_inside hy hx
    have hg' : some { f with result := some result } = some g := by simpa [resolve] using hg
    have hlog := h.log hans
    unfold answers at hlog
    unfold answers resolve
    rw [List.map_append, hlog, ← Option.some_inj.mp hg']
    rfl

theorem reply (h : p.Inv) (hdone : p.server = .done) :
    Inv { p with replies := p.replies + 1, server := .idle, armed := true } := by
  have hphase := h.phase_of_ne fun hq => by simp [hdone] at hq
  have hasked := h.asked hphase
  simp only [hdone, ServerPhase.count] at hasked
  have hans : p.Answered := .inl hdone
  exact { h with
    quiet := fun hne => absurd hphase hne
    asked := fun _ => by simp only [ServerPhase.count]; omega
    fresh := fun x f hf hor => h.fresh x f hf (hor.imp_right fun hno => absurd (.inr (by simp)) hno)
    log := fun hno => absurd (.inr (by simp)) hno
    log_answered := fun _ => h.log_answered hans
    awake := fun _ _ _ => .inr rfl }

/-- The socket is not full when the thread writes. -/
theorem replies_of_done (h : p.Inv) (hdone : p.server = .done) : p.replies = 0 := by
  have hasked := h.asked (h.phase_of_ne fun hq => by simp [hdone] at hq)
  simp only [hdone, ServerPhase.count] at hasked
  omega

/-- Every event that can happen ends, uses no call that has gone and keeps the invariant. -/
theorem exec {e : DNSEvent α β γ} (h : p.Inv) (hok : e.fails = false) (hp : e.Possible p) :
    ∃ p', p.exec e = some p' ∧ p'.Inv := by
  cases e with
  | call args polls report => exact h.call hp.1 hp.2
  | resume polls report => exact h.resume hp.1 hp.2
  | store =>
      obtain ⟨⟨c, hc, hin⟩, hphase⟩ := hp
      rw [DNSProxy.exec, hc, Option.map_some]
      exact ⟨_, rfl, h.store hc hin hphase⟩
  | write answer polls report =>
      obtain ⟨-, hphase, hagain⟩ := hp
      cases answer with
      | byte => exact ⟨_, rfl, h.write hphase⟩
      | again => exact absurd (h.quiet (by simp [hphase])).1 (hagain rfl).1
      | failed => cases hok
  | read answer polls report =>
      obtain ⟨hhold, hphase, hbyte, hagain⟩ := hp
      cases answer with
      | byte =>
          obtain ⟨c, hc, hin⟩ := hhold
          rw [DNSProxy.exec, hc, Option.bind_some]
          exact h.finish hc hin hphase (hbyte rfl)
      | again => exact h.yield hphase hhold (hagain rfl).1 (hagain rfl).2.1
      | failed => cases hok
  | take answer =>
      cases answer with
      | byte => exact ⟨_, rfl, h.take hp.1 (hp.2 rfl)⟩
      | again => exact ⟨_, rfl, h⟩
      | failed => exact ⟨_, rfl, h⟩
  | serve result => exact h.serve hp
  | reply answer =>
      cases answer with
      | byte => exact ⟨_, rfl, h.reply hp.1⟩
      | again => exact absurd (h.replies_of_done hp.1) (hp.2 rfl)
      | failed => cases hok
  | edge => exact ⟨_, rfl, { h with awake := fun _ _ _ => .inr rfl }⟩
  | other e report => exact h.other hp.1 hp.2.1 hp.2.2

end Inv

theorem inv_start {s : TaskSystem Q α} {args : β} (hs : s.Legal) (hc : s.currentTask = some c) :
    Inv (start s c args : DNSProxy Q α β γ) := by
  have hm := (MutexSystem.inv_init hs).enter (c := c) hc rfl rfl
  have hin : ((MutexSystem.init s).enter c).stage c = .inside := Function.update_self ..
  exact {
    mutex := ⟨[], hm⟩
    idle_iff := by simp [start, MutexSystem.enter]
    frames_iff := by
      intro x
      by_cases hx : x = c
      · simp [start, MutexSystem.enter, hx]
      · simp [start, MutexSystem.enter, MutexSystem.init, hx]
    current := fun _ => ⟨c, hc, hin⟩
    null := fun _ => rfl
    owner := by simp [start]
    quiet := fun _ => ⟨rfl, rfl, rfl⟩
    asked := by simp [start]
    fresh := by
      intro x f hf _
      by_cases hx : x = c
      · have hf' : some (⟨args, none⟩ : DNSCall β γ) = some f := by simpa [start, hx] using hf
        rw [← Option.some_inj.mp hf']
      · simp [start, hx] at hf
    log := fun _ => rfl
    log_answered := by simp [Answered, start]
    awake := by simp [start] }

/-! ### Runs -/

/-- The proxy after some events; `none` if one of them could not happen or used memory that is not
there. -/
def runs (p : DNSProxy Q α β γ) (es : List (DNSEvent α β γ)) : Option (DNSProxy Q α β γ) :=
  GuardedRun.runs DNSEvent.Possible exec p es

theorem Inv.runs {p' : DNSProxy Q α β γ} {es : List (DNSEvent α β γ)} (h : p.Inv)
    (hok : ∀ e ∈ es, e.fails = false) (hes : p.runs es = some p') : p'.Inv := by
  refine GuardedRun.runs_invariant_of ?_ h hok hes
  intro p e p' h hok hp hp'
  obtain ⟨p₁, hp₁, h₁⟩ := h.exec hok hp
  obtain rfl := Option.some_inj.mp (hp'.symm.trans hp₁)
  exact h₁

/-- What the users of the proxy rely on. -/
structure Sound (p : DNSProxy Q α β γ) : Prop where
  /-- The results of the calls that have returned are those that the thread has stored for them, in
  order; at most one more call is resolved. -/
  own : ∃ l, p.answers = p.returned ++ l ∧ l.length ≤ 1
  /-- While the thread works on a call, its task is in it and has the mutex. -/
  alive : p.server ≠ .idle → ∃ x, p.call = some x ∧ p.frames x ≠ none ∧ p.mutex.stage x = .inside
  /-- At most one byte is on its way. -/
  bytes : p.requests + p.replies ≤ 1
  /-- The reply to a task that waits will be reported, and the report wakes up this task. -/
  woken : p.replies ≠ 0 → ∀ x, p.mutex.stage x = .inside →
    p.mutex.sched.state x = some .running ∨ p.armed = true ∧ p.entity = .task x
  /-- After the last task the thread does nothing. -/
  rest : p.mutex.sched.currentTask = none → p.server = .idle ∧ p.requests = 0

theorem Inv.sound (h : p.Inv) : p.Sound where
  own := by
    by_cases hans : p.Answered
    · have hphase := h.phase_of_ne fun hq => by simp [Answered, hq] at hans
      obtain ⟨x, hx⟩ := h.exists_inside (by simp [hphase])
      obtain ⟨f, hf⟩ := h.exists_frame hx
      exact ⟨[f], h.log_answered hans x f hx hf, Nat.le_refl _⟩
    · exact ⟨[], by rw [h.log hans, List.append_nil], Nat.zero_le _⟩
  alive hserver := by
    have hphase := h.phase_of_ne fun hq => hserver hq.2.2
    obtain ⟨x, hx⟩ := h.exists_inside (by simp [hphase])
    obtain ⟨f, hf⟩ := h.exists_frame hx
    exact ⟨x, (h.owner (.inr hphase) x hx).1, by simp [hf], hx⟩
  bytes := by
    by_cases hphase : p.phase = .asked
    · have := h.asked hphase
      omega
    · obtain ⟨h₁, h₂, -⟩ := h.quiet hphase
      omega
  woken hr x hx := by
    have hphase := h.phase_of_ne fun hq => hr hq.2.1
    exact (h.awake hr x hx).imp_right fun harmed => ⟨harmed, (h.owner (.inr hphase) x hx).2⟩
  rest hnone := by
    have hphase : p.phase ≠ .asked := by
      intro hphase
      obtain ⟨xs, hm⟩ := h.mutex
      obtain ⟨x, hx⟩ := h.exists_inside (by simp [hphase])
      exact hm.current ⟨x, by simp [hx]⟩ hnone
    exact ⟨(h.quiet hphase).2.2, (h.quiet hphase).1⟩

/-- Whatever the tasks and the thread do, in any order, as long as the pair of sockets does not fail with
another error than `EAGAIN`: the proxy is sound, and no such event that can happen next ends in `abort` or
uses a call, a task or a waiter that is not there. -/
theorem runs_resolved {s : TaskSystem Q α} {es₀ : List (SchedEvent α)} {args : β}
    {es : List (DNSEvent α β γ)} (h₀ : TaskSystem.init.runs es₀ = some s)
    (hc : s.currentTask = some c) (hok : ∀ e ∈ es, e.fails = false)
    (h : (start s c args).runs es = some p) :
    p.Sound ∧ ∀ e : DNSEvent α β γ, e.fails = false → e.Possible p → (p.exec e).isSome := by
  have hinv := (inv_start (TaskSystem.legal_init.runs h₀) hc).runs hok h
  refine ⟨hinv.sound, fun e hok hp => ?_⟩
  obtain ⟨p', hp', -⟩ := hinv.exec hok hp
  rw [hp']
  rfl

/-- Two tasks resolve names.  The second one waits for the mutex while the reply to the first one is
reported; the first one returns, and the second one asks. -/
def twoCalls : List (DNSEvent Bool ℕ ℕ) :=
  [.store, .write .byte [] false, .take .byte, .read .again [] false, .serve 10, .reply .byte,
    .call 7 [[false]] true, .read .byte [] false, .other (.leave .switch []) false, .resume [] false,
    .store, .write .byte [] false]

theorem runs_resolved_two : ∃ s p,
    (TaskSystem.init : TaskSystem (List Bool) Bool).runs MutexSystem.twoTasks = some s ∧
    s.currentTask = some false ∧ (start s false 5).runs twoCalls = some p ∧
      p.returned = [⟨5, some 10⟩] ∧ p.Sound ∧
      ∀ e : DNSEvent Bool ℕ ℕ, e.fails = false → e.Possible p → (p.exec e).isSome := by
  have hrun : ∃ s ∈ (TaskSystem.init : TaskSystem (List Bool) Bool).runs MutexSystem.twoTasks,
      s.currentTask = some false ∧
        ∃ p ∈ (start s false 5).runs twoCalls, p.returned = [⟨5, some 10⟩] := by decide +kernel
  obtain ⟨s, hs, hc, p, hp, hret⟩ := hrun
  exact ⟨s, p, hs, hc, hp, hret, runs_resolved hs hc (by simp [twoCalls, DNSEvent.fails]) hp⟩

-- a read of the task fails, and the thread stores its result where the call has been
example : ∃ s ∈ (TaskSystem.init : TaskSystem (List Bool) Bool).runs MutexSystem.twoTasks,
    ∃ p ∈ (start s false 5 : DNSProxy (List Bool) Bool ℕ ℕ).runs
        [.store, .write .byte [] false, .take .byte, .read .failed [] false],
      (DNSEvent.serve 10).Possible p ∧ (p.exec (.serve 10)).isNone := by decide +kernel

end DNSProxy

end HevTunnel
