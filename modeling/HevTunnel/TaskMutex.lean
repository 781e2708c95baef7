import HevTunnel.LinkedStack
import HevTunnel.TaskTree

/-! # Mutexes between tasks

`hev-task-mutex.c`: a task that finds the mutex locked puts a node from its own stack on the list
`waiters`, waits, and looks again when it is woken up; the one that unlocks wakes the task of the first
node.  Any task may also take the mutex in between, and a task may be woken up for another reason.

`MutexSystem` is a task system with one mutex.  Its events are the calls of the mutex functions by the
current task and everything else that can happen to the task system.  For each task `stage` says where
it is with respect to the mutex.

`Inv` holds in every state of a run: at most one task is inside, the nodes on the list are those of the
tasks in `hev_task_mutex_lock`, none of them dangling, and if the mutex is free, the first of these tasks
can run, so no wake-up is lost. -/

namespace HevTunnel

/-- Where a task is with respect to the mutex. -/
inductive LockStage where
  | outside
  /-- In the loop of `hev_task_mutex_lock`. -/
  | waiting
  /-- Between `hev_task_mutex_lock` and `hev_task_mutex_unlock`. -/
  | inside
deriving DecidableEq, Repr

/-- A task system with a `HevTaskMutex`.  A node is named by its task, because a task waits for one
mutex at a time; `nodes` has the field `next` of the nodes that exist. -/
structure MutexSystem (Q α : Type) where
  sched : TaskSystem Q α
  locker : Bool
  waiters : Option α
  nodes : α → Option (Option α)
  stage : α → LockStage

/-- What happens.  `polls` are the answers of the reactor if the task has to wait. -/
inductive MutexEvent (α : Type) where
  /-- The current task calls `hev_task_mutex_lock`. -/
  | lock (polls : List (List α))
  /-- The current task comes back from `hev_task_yield` in `hev_task_mutex_lock`. -/
  | resume (polls : List (List α))
  /-- The current task calls `hev_task_mutex_trylock`. -/
  | trylock
  /-- The current task calls `hev_task_mutex_unlock`. -/
  | unlock
  /-- Anything else. -/
  | other (e : SchedEvent α)
deriving DecidableEq, Repr

namespace MutexSystem

variable {Q α : Type} [DecidableEq α]

/-- `hev_task_mutex_init`. -/
def init (s : TaskSystem Q α) : MutexSystem Q α := ⟨s, false, none, fun _ => none, fun _ => .outside⟩

/-- The current task takes the mutex. -/
def enter (m : MutexSystem Q α) (c : α) : MutexSystem Q α :=
  { m with locker := true, stage := Function.update m.stage c .inside }

/-- The current task opens the mutex. -/
def release (m : MutexSystem Q α) (c : α) : MutexSystem Q α :=
  { m with locker := false, stage := Function.update m.stage c .outside }

/-- `hev_task_mutex_trylock`. -/
def trylock (m : MutexSystem Q α) : Option (MutexSystem Q α) :=
  m.sched.currentTask.map fun c => if m.locker then m else m.enter c

/-- The node of the current task on the list. -/
def push (m : MutexSystem Q α) (c : α) : MutexSystem Q α :=
  { m with waiters := some c, nodes := Function.update m.nodes c (some m.waiters),
           stage := Function.update m.stage c .waiting }

variable [ReadyQueue Q α]

/-- An event of the task system. -/
def schedule (m : MutexSystem Q α) (e : SchedEvent α) : Option (MutexSystem Q α) :=
  (m.sched.exec e).map fun s => { m with sched := s }

/-- `hev_task_yield (HEV_TASK_WAITIO)`. -/
def yield (m : MutexSystem Q α) (polls : List (List α)) : Option (MutexSystem Q α) :=
  m.schedule (.leave .waitio polls)

/-- `hev_task_mutex_lock` until it returns or waits. -/
def lock (m : MutexSystem Q α) (polls : List (List α)) : Option (MutexSystem Q α) :=
  m.sched.currentTask.bind fun c => if m.locker then (m.push c).yield polls else some (m.enter c)

/-- The condition of the loop in `hev_task_mutex_lock`. -/
def Blocked (m : MutexSystem Q α) (c : α) : Prop := m.locker = true ∨ m.waiters ≠ some c

omit [ReadyQueue Q α] in
instance (m : MutexSystem Q α) (c : α) : Decidable (m.Blocked c) :=
  inferInstanceAs (Decidable (_ ∨ _))

/-- `hev_task_mutex_lock` from the condition of its loop. -/
def resume (m : MutexSystem Q α) (polls : List (List α)) : Option (MutexSystem Q α) :=
  m.sched.currentTask.bind fun c =>
    if m.Blocked c then m.yield polls
    else (m.nodes c).map fun next =>
      enter { m with waiters := next, nodes := Function.update m.nodes c none } c

/-- `if (self->waiters) hev_task_wakeup (self->waiters->task)`. -/
def wakeFirst (m : MutexSystem Q α) : Option (MutexSystem Q α) :=
  match m.waiters with
  | none => some m
  | some x => (m.nodes x).bind fun _ => m.schedule (.wakeup x)

/-- `hev_task_mutex_unlock`. -/
def unlock (m : MutexSystem Q α) : Option (MutexSystem Q α) :=
  m.sched.currentTask.bind fun c => (m.release c).wakeFirst

def exec (m : MutexSystem Q α) : MutexEvent α → Option (MutexSystem Q α)
  | .lock polls => m.lock polls
  | .resume polls => m.resume polls
  | .trylock => m.trylock
  | .unlock => m.unlock
  | .other e => m.schedule e

end MutexSystem

/-- The current task ends. -/
def SchedEvent.ends {α : Type} : SchedEvent α → Bool
  | .leave .remove _ => true
  | _ => false

/-- When an event can happen.  A task does not lock a mutex that it has locked and unlocks only such a
one; it does not end in between.  A task that comes back from `hev_task_yield` in `hev_task_mutex_lock`
goes on there. -/
def MutexEvent.Possible {Q α : Type} (m : MutexSystem Q α) : MutexEvent α → Prop
  | .lock polls => ∃ c ∈ m.sched.currentTask, m.stage c = .outside ∧
      (m.locker = true → (SchedEvent.leave .waitio polls).Possible m.sched)
  | .resume polls => ∃ c ∈ m.sched.currentTask, m.stage c = .waiting ∧
      (m.locker = true ∨ m.waiters ≠ some c → (SchedEvent.leave .waitio polls).Possible m.sched)
  | .trylock => ∃ c ∈ m.sched.currentTask, m.stage c = .outside
  | .unlock => ∃ c ∈ m.sched.currentTask, m.stage c = .inside
  | .other e => e.Possible m.sched ∧ ∀ c ∈ m.sched.currentTask, m.stage c ≠ .waiting ∧
      (e.ends = true → m.stage c = .outside)

instance MutexEvent.decidablePossible {Q α : Type} [DecidableEq α] (m : MutexSystem Q α) :
    (e : MutexEvent α) → Decidable (e.Possible m)
  | .lock _ => inferInstanceAs (Decidable (∃ c ∈ m.sched.currentTask, _ ∧ (_ → _)))
  | .resume _ => inferInstanceAs (Decidable (∃ c ∈ m.sched.currentTask, _ ∧ (_ → _)))
  | .trylock => inferInstanceAs (Decidable (∃ c ∈ m.sched.currentTask, _))
  | .unlock => inferInstanceAs (Decidable (∃ c ∈ m.sched.currentTask, _))
  | .other _ => inferInstanceAs (Decidable (_ ∧ ∀ c ∈ m.sched.currentTask, _ ∧ (_ → _)))

namespace MutexEvent

variable {α : Type}

/-- The priorities that the event gives to tasks. -/
def Sets (P : Fin 16 → Prop) : MutexEvent α → Prop
  | .other e => e.Sets P
  | _ => True

/-- While the mutex is free, these are the events at which a task gives the processor back. -/
def isLeave : MutexEvent α → Bool
  | .resume _ => true
  | .other e => e.isLeave
  | _ => false

end MutexEvent

namespace MutexSystem

variable {Q α : Type} [DecidableEq α]

/-- The system after some events; `none` if one of them could not happen or ended in `abort`. -/
def runs [ReadyQueue Q α] : MutexSystem Q α → List (MutexEvent α) → Option (MutexSystem Q α) :=
  GuardedRun.runs MutexEvent.Possible exec

/-! ### The invariant -/

variable [ReadyQueue Q α] [LawfulReadyQueue Q]

/-- What holds at every event; `xs` are the tasks that wait for the mutex, the last one first. -/
structure Inv (m : MutexSystem Q α) (xs : List α) : Prop where
  sched : m.sched.Legal
  chain : LinkedStack.Chain m.nodes m.waiters xs
  nodup : xs.Nodup
  mem_iff : ∀ x, x ∈ xs ↔ m.stage x = .waiting
  live : ∀ x, m.stage x ≠ .outside → m.sched.Live x
  locked : m.locker = true ↔ ∃ x, m.stage x = .inside
  unique : ∀ x y, m.stage x = .inside → m.stage y = .inside → x = y
  awake : m.locker = false → ∀ x ∈ m.waiters, m.sched.state x = some .running
  current : (∃ x, m.stage x ≠ .outside) → m.sched.currentTask ≠ none

variable {m : MutexSystem Q α} {xs : List α} {c : α}

theorem inv_init {s : TaskSystem Q α} (hs : s.Legal) : Inv (init s) [] where
  sched := hs
  chain := rfl
  nodup := List.nodup_nil
  mem_iff x := by simp [init]
  live x hx := absurd rfl hx
  locked := by simp [init]
  unique x y hx := by simp [init] at hx
  awake _ x hx := by simp [init] at hx
  current := by simp [init]

namespace Inv

theorem live_current (h : Inv m xs) (hc : m.sched.currentTask = some c) : m.sched.Live c := by
  obtain ⟨t, ht, hst⟩ := Option.map_eq_some_iff.mp (h.sched.current hc)
  exact ⟨t, ht, by simp [hst]⟩

theorem not_mem (h : Inv m xs) (hc : m.stage c ≠ .waiting) : c ∉ xs := fun hin =>
  hc ((h.mem_iff c).mp hin)

/-- The first node is that of a task that waits. -/
theorem first (h : Inv m xs) {x : α} (hx : m.waiters = some x) :
    ∃ next ys, m.nodes x = some next ∧ xs = x :: ys := by
  obtain ⟨next, ys, hnext, hys, -⟩ := h.chain.first hx
  exact ⟨next, ys, hnext, hys⟩

theorem not_inside (h : Inv m xs) (hfree : m.locker = false) (x : α) : m.stage x ≠ .inside := by
  intro hx
  have hlock := h.locked.mpr ⟨x, hx⟩
  simp [hfree] at hlock

/-- The current task is live, wherever it goes. -/
theorem live_update (h : Inv m xs) (hc : m.sched.currentTask = some c) (st : LockStage) {x : α}
    (hx : Function.update m.stage c st x ≠ .outside) : m.sched.Live x := by
  by_cases hxc : x = c
  · rw [hxc]
    exact h.live_current hc
  · rw [Function.update_of_ne hxc] at hx
    exact h.live x hx

/-- Nobody is inside but the task that enters. -/
theorem eq_of_inside (h : Inv m xs) (hfree : m.locker = false) {x : α}
    (hx : Function.update m.stage c .inside x = .inside) : x = c := by
  by_contra hxc
  rw [Function.update_of_ne hxc] at hx
  exact h.not_inside hfree x hx

/-- A task that was not in the list takes the free mutex. -/
theorem enter (h : Inv m xs) (hc : m.sched.currentTask = some c) (hout : m.stage c = .outside)
    (hfree : m.locker = false) : Inv (m.enter c) xs := by
  have hnot : c ∉ xs := h.not_mem (by simp [hout])
  refine ⟨h.sched, h.chain, h.nodup, ?_, fun x => h.live_update hc _,
    ⟨fun _ => ⟨c, Function.update_self ..⟩, fun _ => rfl⟩,
    fun x y hx hy => (h.eq_of_inside hfree hx).trans (h.eq_of_inside hfree hy).symm,
    by simp [MutexSystem.enter], fun _ => by simp [MutexSystem.enter, hc]⟩
  intro x
  by_cases hx : x = c
  · simp [MutexSystem.enter, hx, hnot]
  · simp [MutexSystem.enter, hx, h.mem_iff]

/-- The current task puts its node on the list of the locked mutex. -/
theorem push (h : Inv m xs) (hc : m.sched.currentTask = some c) (hout : m.stage c = .outside)
    (hlock : m.locker = true) : Inv (m.push c) (c :: xs) := by
  have hnot : c ∉ xs := h.not_mem (by simp [hout])
  refine ⟨h.sched, h.chain.push hnot, List.nodup_cons.mpr ⟨hnot, h.nodup⟩, ?_,
    fun x => h.live_update hc _, ?_, ?_, ?_, fun _ => by simp [MutexSystem.push, hc]⟩
  · intro x
    by_cases hx : x = c
    · simp [MutexSystem.push, hx]
    · simp [MutexSystem.push, hx, h.mem_iff]
  · refine ⟨fun _ => ?_, fun _ => hlock⟩
    obtain ⟨x, hx⟩ := h.locked.mp hlock
    have hxc : x ≠ c := by
      rintro rfl
      simp [hout] at hx
    exact ⟨x, by simpa [MutexSystem.push, hxc] using hx⟩
  · have hold : ∀ x, (m.push c).stage x = .inside → m.stage x = .inside := by
      intro x hx
      by_cases hxc : x = c
      · simp [MutexSystem.push, hxc] at hx
      · simpa [MutexSystem.push, hxc] using hx
    exact fun x y hx hy => h.unique x y (hold x hx) (hold y hy)
  · intro hfree
    have hfree' : m.locker = false := hfree
    simp [hlock] at hfree'

/-- An event of the task system that leaves the mutex alone. -/
theorem sched_exec {e : SchedEvent α} (h : Inv m xs) (hp : e.Possible m.sched)
    (hend : ∀ x, m.stage x ≠ .outside → ∀ polls, e = .leave .remove polls →
      m.sched.currentTask ≠ some x)
    (htop : m.locker = false → ∀ x ∈ m.waiters, ∀ how polls, e = .leave how polls →
      m.sched.currentTask ≠ some x) :
    ∃ m', m.schedule e = some m' ∧ Inv m' xs := by
  obtain ⟨s, hs, hlegal, hlive, hrun, -, hcur⟩ := h.sched.exec hp
  have hlive' : ∀ x, m.stage x ≠ .outside → s.Live x := fun x hx =>
    hlive x (h.live x hx) (hend x hx)
  refine ⟨{ m with sched := s }, by rw [schedule, hs, Option.map_some], hlegal, h.chain, h.nodup,
    h.mem_iff, hlive', h.locked, h.unique, ?_, ?_⟩
  · exact fun hfree x hx => hrun x (h.awake hfree x hx) (htop hfree x hx)
  · rintro ⟨x, hx⟩
    exact hcur (h.current ⟨x, hx⟩) ⟨x, hlive' x hx⟩

theorem yield {polls : List (List α)} (h : Inv m xs)
    (hc : m.sched.currentTask = some c) (hp : (SchedEvent.leave .waitio polls).Possible m.sched)
    (hb : m.Blocked c) : ∃ m', m.yield polls = some m' ∧ Inv m' xs := by
  refine h.sched_exec hp (by simp) fun hfree x hx _ _ _ hxc => ?_
  have hcx : c = x := Option.some_inj.mp (hc.symm.trans hxc)
  rcases hb with hlock | hne
  · simp [hfree] at hlock
  · exact hne (hcx ▸ hx)

/-- The first task of the list finds the mutex free. -/
theorem pop {next : Option α} (h : Inv m (c :: xs)) (hc : m.sched.currentTask = some c)
    (hfree : m.locker = false) (hnext : m.nodes c = some next) :
    Inv (MutexSystem.enter
      { m with waiters := next, nodes := Function.update m.nodes c none } c) xs := by
  obtain ⟨hnot, hnd⟩ := List.nodup_cons.mp h.nodup
  obtain ⟨-, next', hnext', hchain⟩ := h.chain
  obtain rfl := Option.some_inj.mp (hnext.symm.trans hnext')
  refine ⟨h.sched, hchain.update hnot _, hnd, ?_, fun x => h.live_update hc _,
    ⟨fun _ => ⟨c, Function.update_self ..⟩, fun _ => rfl⟩,
    fun x y hx hy => (h.eq_of_inside hfree hx).trans (h.eq_of_inside hfree hy).symm,
    by simp [MutexSystem.enter], fun _ => by simp [MutexSystem.enter, hc]⟩
  intro x
  by_cases hx : x = c
  · simp [MutexSystem.enter, hx, hnot]
  · have hmem := h.mem_iff x
    simp only [List.mem_cons, hx, false_or] at hmem
    simp [MutexSystem.enter, hx, hmem]

/-- The holder opens the mutex, and the first task of the list is woken up. -/
theorem release {s : TaskSystem Q α} (h : Inv m xs) (hin : m.stage c = .inside) (hs : s.Legal)
    (hlive : ∀ x, m.sched.Live x → s.Live x) (htop : ∀ x ∈ m.waiters, s.state x = some .running)
    (hcur : s.currentTask ≠ none) : Inv { m.release c with sched := s } xs := by
  have hstage : ∀ x, Function.update m.stage c .outside x ≠ .inside := by
    intro x hx
    by_cases hxc : x = c
    · simp [hxc] at hx
    · rw [Function.update_of_ne hxc] at hx
      exact hxc (h.unique x c hx hin)
  refine ⟨hs, h.chain, h.nodup, ?_, ?_, ?_, fun x y hx => absurd hx (hstage x), fun _ => htop,
    fun _ => hcur⟩
  · intro x
    by_cases hxc : x = c
    · simp [MutexSystem.release, hxc, h.mem_iff, hin]
    · simp [MutexSystem.release, hxc, h.mem_iff]
  · intro x hx
    by_cases hxc : x = c
    · simp [MutexSystem.release, hxc] at hx
    · exact hlive x (h.live x (by simpa [MutexSystem.release, hxc] using hx))
  · simpa [MutexSystem.release] using hstage

theorem unlock (h : Inv m xs) (hc : m.sched.currentTask = some c) (hin : m.stage c = .inside) :
    ∃ m', m.unlock = some m' ∧ Inv m' xs := by
  rw [MutexSystem.unlock, hc, Option.bind_some, wakeFirst]
  cases hw : (m.release c).waiters with
  | none =>
      refine ⟨_, rfl, h.release hin h.sched (fun _ => id) (fun x hx => ?_) (by simp [hc])⟩
      exact absurd (hw.symm.trans hx) (by simp)
  | some x =>
      obtain ⟨next, ys, hnext, rfl⟩ := h.first hw
      have hstage := (h.mem_iff x).mp List.mem_cons_self
      have hlive : m.sched.Live x := h.live x (by simp [hstage])
      obtain ⟨s, hs, hlegal, hkeep, -, hwoken, hcur⟩ := h.sched.exec (e := .wakeup x) hlive
      refine ⟨{ m.release c with sched := s }, ?_,
        h.release hin hlegal (fun y hy => hkeep y hy (by simp)) ?_
          (hcur (by simp [hc]) ⟨x, hkeep x hlive (by simp)⟩)⟩
      · have hnext' : (m.release c).nodes x = some next := hnext
        have hs' : (m.release c).sched.exec (.wakeup x) = some s := hs
        simp only [hnext', Option.bind_some, MutexSystem.schedule, hs', Option.map_some]
      · intro y hy
        obtain rfl := Option.some_inj.mp (hw.symm.trans hy)
        exact hwoken x rfl

/-- Every event that can happen ends, follows no dangling node and keeps the invariant. -/
theorem exec {e : MutexEvent α} (h : Inv m xs) (hp : e.Possible m) :
    ∃ m' xs', m.exec e = some m' ∧ Inv m' xs' := by
  cases e with
  | lock polls =>
      obtain ⟨c, hc, hout, hwait⟩ := hp
      rw [MutexSystem.exec, MutexSystem.lock, hc, Option.bind_some]
      cases hlock : m.locker with
      | false => exact ⟨_, _, rfl, h.enter hc hout hlock⟩
      | true =>
          obtain ⟨m', hm', hinv⟩ := (h.push hc hout hlock).yield hc (hwait hlock) (.inl hlock)
          exact ⟨m', _, hm', hinv⟩
  | resume polls =>
      obtain ⟨c, hc, hin, hwait⟩ := hp
      rw [MutexSystem.exec, MutexSystem.resume, hc, Option.bind_some]
      split_ifs with hb
      · obtain ⟨m', hm', hinv⟩ := h.yield hc (hwait hb) hb
        exact ⟨m', _, hm', hinv⟩
      · obtain ⟨hlock, htop⟩ := not_or.mp hb
        obtain ⟨next, ys, hnext, rfl⟩ := h.first (not_not.mp htop)
        exact ⟨_, ys, by rw [hnext, Option.map_some], h.pop hc (by simpa using hlock) hnext⟩
  | trylock =>
      obtain ⟨c, hc, hout⟩ := hp
      rw [MutexSystem.exec, MutexSystem.trylock, hc, Option.map_some]
      cases hlock : m.locker with
      | false => exact ⟨_, _, rfl, h.enter hc hout hlock⟩
      | true => exact ⟨_, _, rfl, h⟩
  | unlock =>
      obtain ⟨c, hc, hin⟩ := hp
      obtain ⟨m', hm', hinv⟩ := h.unlock hc hin
      exact ⟨m', _, hm', hinv⟩
  | other e =>
      obtain ⟨hp, hcur⟩ := hp
      obtain ⟨m', hm', hinv⟩ := h.sched_exec hp
        (fun x hx polls he hxc => hx ((hcur x hxc).2 (by rw [he]; rfl))) (by
          intro hfree x hx how polls _ hxc
          obtain ⟨_, ys, -, rfl⟩ := h.first hx
          exact (hcur x hxc).1 ((h.mem_iff x).mp List.mem_cons_self))
      exact ⟨m', _, hm', hinv⟩

end Inv

/-! ### Runs -/

theorem Inv.runs {m' : MutexSystem Q α} {es : List (MutexEvent α)} (h : Inv m xs)
    (hes : m.runs es = some m') : ∃ xs', Inv m' xs' := by
  refine GuardedRun.runs_invariant (I := fun m => ∃ xs, Inv m xs) ?_ ⟨xs, h⟩ hes
  rintro m e m' ⟨xs, h⟩ hp hm'
  obtain ⟨m₁, xs', hm₁, h'⟩ := h.exec hp
  obtain rfl := Option.some_inj.mp (hm'.symm.trans hm₁)
  exact ⟨xs', h'⟩

/-- In every state of a run at most one task is inside, and the mutex is locked exactly then; no event
that can happen next ends in `abort` or follows a dangling node. -/
theorem runs_exclusive {s : TaskSystem Q α} {es₀ : List (SchedEvent α)} {es : List (MutexEvent α)}
    (h₀ : TaskSystem.init.runs es₀ = some s) (h : (init s).runs es = some m) :
    (∀ x y, m.stage x = .inside → m.stage y = .inside → x = y) ∧
      (m.locker = true ↔ ∃ x, m.stage x = .inside) ∧
      ∀ e : MutexEvent α, e.Possible m → (m.exec e).isSome := by
  obtain ⟨xs, hinv⟩ := (inv_init (TaskSystem.legal_init.runs h₀)).runs h
  refine ⟨hinv.unique, hinv.locked, fun e hp => ?_⟩
  obtain ⟨m', xs', hm', -⟩ := hinv.exec hp
  rw [hm']
  rfl

/-- Two tasks have been started. -/
def twoTasks : List (SchedEvent Bool) :=
  [.new false, .new true, .run false, .run true, .start []]

/-- The first task locks the mutex and yields, the second one waits for it, and the first one unlocks
it. -/
def handOver : List (MutexEvent Bool) := [.lock [], .other (.leave .switch []), .lock [], .unlock]

theorem runs_exclusive_two : ∃ s m,
    (TaskSystem.init : TaskSystem (List Bool) Bool).runs twoTasks = some s ∧
    (init s).runs handOver = some m ∧
    (∀ x y, m.stage x = .inside → m.stage y = .inside → x = y) ∧
      (m.locker = true ↔ ∃ x, m.stage x = .inside) ∧
      ∀ e : MutexEvent Bool, e.Possible m → (m.exec e).isSome := by
  have hrun : ∃ s ∈ (TaskSystem.init : TaskSystem (List Bool) Bool).runs twoTasks,
      ∃ m ∈ (init s).runs handOver, m.locker = false := by decide +kernel
  obtain ⟨s, hs, m, hm, -⟩ := hrun
  exact ⟨s, m, hs, hm, runs_exclusive hs hm⟩

/-! ### A free mutex is taken -/

section free
variable {m₁ m' : MutexSystem Q α} {e : MutexEvent α} {es : List (MutexEvent α)} {x : α}
  {P : Fin 16 → Prop}

omit [LawfulReadyQueue Q] in
theorem schedule_eq {e : SchedEvent α} (h : m.schedule e = some m') :
    m.sched.exec e = some m'.sched ∧ m'.waiters = m.waiters ∧ m'.locker = m.locker := by
  obtain ⟨s, hs, rfl⟩ := Option.map_eq_some_iff.mp h
  exact ⟨hs, rfl, rfl⟩

/-- An event is at most one event of the task system. -/
theorem Inv.sched_event (h : Inv m xs) (hp : e.Possible m) (hok : e.Sets P)
    (hexec : m.exec e = some m') : m'.sched = m.sched ∨
      ∃ e' : SchedEvent α, e'.Possible m.sched ∧ e'.Sets P ∧ m.sched.exec e' = some m'.sched := by
  cases e with
  | lock polls =>
      obtain ⟨c, hc, -, hwait⟩ := hp
      rw [MutexSystem.exec, MutexSystem.lock, hc, Option.bind_some] at hexec
      split_ifs at hexec with hlock
      · exact .inr ⟨_, hwait hlock, trivial, (schedule_eq hexec).1⟩
      · obtain rfl := Option.some_inj.mp hexec
        exact .inl rfl
  | resume polls =>
      obtain ⟨c, hc, -, hwait⟩ := hp
      rw [MutexSystem.exec, MutexSystem.resume, hc, Option.bind_some] at hexec
      split_ifs at hexec with hb
      · exact .inr ⟨_, hwait hb, trivial, (schedule_eq hexec).1⟩
      · obtain ⟨next, -, rfl⟩ := Option.map_eq_some_iff.mp hexec
        exact .inl rfl
  | trylock =>
      obtain ⟨c, hc, rfl⟩ := Option.map_eq_some_iff.mp hexec
      left
      split_ifs <;> rfl
  | unlock =>
      obtain ⟨c, hc, hin⟩ := hp
      rw [MutexSystem.exec, MutexSystem.unlock, hc, Option.bind_some, wakeFirst] at hexec
      cases hw : (m.release c).waiters with
      | none =>
          simp only [hw, Option.some_inj] at hexec
          exact .inl (by rw [← hexec]; rfl)
      | some x =>
          obtain ⟨next, ys, hnext, rfl⟩ := h.first hw
          have hnext' : (m.release c).nodes x = some next := hnext
          simp only [hw, hnext', Option.bind_some] at hexec
          have hstage := (h.mem_iff x).mp List.mem_cons_self
          exact .inr ⟨.wakeup x, h.live x (by simp [hstage]), trivial, (schedule_eq hexec).1⟩
  | other e => exact .inr ⟨e, hp.1, hok, (schedule_eq hexec).1⟩

/-- What happens while the mutex stays free: the first task of the list is not the current one. -/
theorem Inv.free_event (h : Inv m xs) (hx : m.waiters = some x) (hp : e.Possible m) (hok : e.Sets P)
    (hexec : m.exec e = some m') (hfree : m.locker = false) (hfree' : m'.locker = false) :
    m'.waiters = some x ∧ m.sched.currentTask ≠ some x ∧
      ∃ e' : SchedEvent α, e'.Possible m.sched ∧ e'.Sets P ∧ m.sched.exec e' = some m'.sched ∧
        e'.isLeave = e.isLeave := by
  have henter : ∀ {n : MutexSystem Q α} {c}, n.enter c ≠ m' := by
    intro n c heq
    have hlock : (n.enter c).locker = true := rfl
    rw [heq, hfree'] at hlock
    simp at hlock
  cases e with
  | lock polls =>
      obtain ⟨c, hc, -⟩ := hp
      rw [MutexSystem.exec, MutexSystem.lock, hc, Option.bind_some, hfree] at hexec
      exact absurd (Option.some_inj.mp hexec) henter
  | resume polls =>
      obtain ⟨c, hc, -, hwait⟩ := hp
      rw [MutexSystem.exec, MutexSystem.resume, hc, Option.bind_some] at hexec
      split_ifs at hexec with hb
      · obtain ⟨hs, hw, -⟩ := schedule_eq hexec
        refine ⟨hw.trans hx, ?_, _, hwait hb, trivial, hs, rfl⟩
        rw [hc, ← hx]
        exact fun heq => hb.elim (by simp [hfree]) fun hne => hne heq.symm
      · obtain ⟨next, -, heq⟩ := Option.map_eq_some_iff.mp hexec
        exact absurd heq henter
  | trylock =>
      obtain ⟨c, hc, -⟩ := hp
      rw [MutexSystem.exec, MutexSystem.trylock, hc, Option.map_some, hfree] at hexec
      exact absurd (Option.some_inj.mp hexec) henter
  | unlock =>
      obtain ⟨c, -, hin⟩ := hp
      exact absurd hin (h.not_inside hfree c)
  | other e =>
      obtain ⟨hp, hcur⟩ := hp
      obtain ⟨hs, hw, -⟩ := schedule_eq hexec
      refine ⟨hw.trans hx, fun hxc => ?_, e, hp, hok, hs, rfl⟩
      obtain ⟨_, ys, -, rfl⟩ := h.first hx
      exact (hcur x hxc).1 ((h.mem_iff x).mp List.mem_cons_self)

open TaskSystem

theorem Inv.fair_runs {v : TaskSystem (List α) α} {k : ℕ} (h : Inv m xs) (hes : m.runs es = some m')
    (hr : Refines m.sched v) (hf : FairRun k v) (hk : k + es.length < 2 ^ 59)
    (hok : ∀ e ∈ es, e.Sets (· ≠ 0)) :
    ∃ v' xs', Refines m'.sched v' ∧ FairRun (k + es.length) v' ∧ Inv m' xs' := by
  induction es generalizing m xs v k with
  | nil =>
      obtain rfl := Option.some_inj.mp hes
      exact ⟨v, xs, hr, hf, h⟩
  | cons e es ih =>
      rw [List.length_cons] at hk ⊢
      obtain ⟨m₁, hp, hexec, hes⟩ := GuardedRun.runs_cons hes
      have hok' : ∀ e' ∈ es, e'.Sets (· ≠ 0) := fun e' he' => hok e' (List.mem_cons_of_mem _ he')
      obtain ⟨m₁', xs₁, hm₁, h₁⟩ := h.exec hp
      obtain rfl := Option.some_inj.mp (hexec.symm.trans hm₁)
      have hlen : k + (es.length + 1) = (k + 1) + es.length := by omega
      rw [hlen]
      rcases h.sched_event hp (hok e List.mem_cons_self) hexec with hsame | ⟨e', hp', hok₁, hs⟩
      · exact ih h₁ hes (by rwa [hsame]) ⟨hf.sound, hf.fair.mono, hf.front⟩ (by omega) hok'
      · obtain ⟨v₁, hr₁, hf₁, -⟩ := FairRun.exec hr hf (by omega) hp' hok₁ hs
        exact ih h₁ hes hr₁ hf₁ (by omega) hok'

/-- As long as the mutex is free, no more tasks give the processor back than the first task of the list
has patience for. -/
theorem Inv.leaves_le {v : TaskSystem (List α) α} {k n : ℕ} (h : Inv m xs) (hes : m.runs es = some m')
    (hr : Refines m.sched v) (hf : FairRun k v) (hk : k + es.length < 2 ^ 59)
    (hok : ∀ e ∈ es, e.Sets (· ≠ 0)) (hx : m.waiters = some x)
    (hfree : ∀ es₁ u, es₁ <+: es → m.runs es₁ = some u → u.locker = false)
    (hn : ∀ es₁ u, es₁ <+: es → m.runs es₁ = some u → u.sched.runningTaskCount ≤ n) :
    es.countP MutexEvent.isLeave ≤ FairQueue.patience n (keyOf v.tasks) x v.runningTasks := by
  induction es generalizing m xs v k with
  | nil => exact Nat.zero_le _
  | cons e es ih =>
      rw [List.length_cons] at hk
      obtain ⟨m₁, hp, hexec, hes⟩ := GuardedRun.runs_cons hes
      obtain ⟨m₁', xs₁, hm₁, h₁⟩ := h.exec hp
      obtain rfl := Option.some_inj.mp (hexec.symm.trans hm₁)
      have hrest := GuardedRun.forall_prefix_of_cons hp hexec hfree
      have hfree₀ := hfree [] m List.nil_prefix rfl
      have hfree₁ := hrest [] m₁ List.nil_prefix rfl
      obtain ⟨hx₁, hne, e', hp', hok', hs, hleave⟩ :=
        h.free_event hx hp (hok e List.mem_cons_self) hexec hfree₀ hfree₁
      obtain ⟨v₁, hr₁, hf₁, heff⟩ := FairRun.exec hr hf (by omega) hp' hok' hs
      have hready : x ∈ v.runningTasks := by
        obtain ⟨ws, hinv⟩ := hf.sound.inv
        rw [hinv.mem_running, state, ← hr.tasks]
        exact h.awake hfree₀ x hx
      have hstage : m.stage x ≠ .outside := by
        obtain ⟨_, ys, -, rfl⟩ := h.first hx
        rw [(h.mem_iff x).mp List.mem_cons_self]
        decide
      have hcount := hn [] m List.nil_prefix rfl
      have hcur := h.current ⟨x, hstage⟩
      rw [hr.count] at hcount
      rw [hr.current] at hne hcur
      obtain ⟨-, -, hle⟩ := hf.patience (by omega) heff ((hr.possible_iff e').mp hp') hcur hready hne
        hcount
      have hih := ih h₁ hes hr₁ hf₁ (by omega) (fun e' he' => hok e' (List.mem_cons_of_mem _ he')) hx₁
        hrest (GuardedRun.forall_prefix_of_cons hp hexec hn)
      rw [List.countP_cons, ← hleave]
      omega

/-- If tasks wait for a mutex, no priority is 0 and never more than `n` tasks can run, the mutex is
locked by the time `16 * n` tasks have given the processor back. -/
theorem runs_taken {s : TaskSystem Q α} {es₀ : List (SchedEvent α)} {es₁ es : List (MutexEvent α)}
    {n : ℕ} (h₀ : TaskSystem.init.runs es₀ = some s) (h₁ : (init s).runs es₁ = some m)
    (h : m.runs es = some m')
    (hlen : es₀.length + es₁.length + es.length < 2 ^ 59)
    (hok₀ : ∀ e ∈ es₀, e.Sets (· ≠ 0)) (hok : ∀ e ∈ es₁ ++ es, e.Sets (· ≠ 0))
    (hx : m.stage x = .waiting)
    (hn : ∀ es' u, es' <+: es → m.runs es' = some u → u.sched.runningTaskCount ≤ n)
    (hleaves : 16 * n ≤ es.countP MutexEvent.isLeave) :
    ∃ es' u, es' <+: es ∧ m.runs es' = some u ∧ u.locker = true := by
  obtain ⟨v₀, hr₀, hf₀⟩ := FairRun.runs Refines.init fairRun_init (by omega) hok₀ h₀
  obtain ⟨v, xs, hr, hf, hinv⟩ := (inv_init ⟨v₀, hr₀, hf₀.sound⟩).fair_runs h₁ hr₀ hf₀ (by omega)
    fun e he => hok e (List.mem_append_left _ he)
  by_contra hnone
  push Not at hnone
  simp only [ne_eq, Bool.not_eq_true] at hnone
  obtain ⟨y, hy⟩ : ∃ y, m.waiters = some y := by
    have hmem := (hinv.mem_iff x).mpr hx
    rw [hinv.chain.head?_eq]
    cases xs with
    | nil => simp at hmem
    | cons y ys => exact ⟨y, rfl⟩
  have hle := hinv.leaves_le h hr hf (by omega) (fun e he => hok e (List.mem_append_right _ he)) hy
    hnone hn
  obtain ⟨ws, hinvv⟩ := hf.sound.inv
  have hyv : y ∈ v.runningTasks := by
    rw [hinvv.mem_running, state, ← hr.tasks]
    exact hinv.awake (hnone [] m List.nil_prefix rfl) y hy
  have hcount := hn [] m List.nil_prefix rfl
  rw [hr.count] at hcount
  have hlt := hf.patience_lt hyv hcount
  omega

end free

/-- The second task takes the mutex and unlocks it, and then both yield in turn. -/
def afterwards : List (MutexEvent Bool) :=
  [.other (.leave .switch []), .resume [], .unlock] ++
    List.replicate 32 (.other (.leave .switch []))

theorem runs_taken_two : ∃ s m es' u,
    (TaskSystem.init : TaskSystem (List Bool) Bool).runs twoTasks = some s ∧
    (init s).runs handOver = some m ∧ m.stage true = .waiting ∧
    es' <+: afterwards ∧ m.runs es' = some u ∧ u.locker = true := by
  have hrun : ∃ s ∈ (TaskSystem.init : TaskSystem (List Bool) Bool).runs twoTasks,
      ∃ m ∈ (init s).runs handOver, m.stage true = .waiting ∧ (m.runs afterwards).isSome ∧
        ∀ es' ∈ afterwards.inits, ∀ u ∈ m.runs es', u.sched.runningTaskCount ≤ 2 := by
    decide +kernel
  obtain ⟨s, hs, m, hm, hstage, hsome, hcount⟩ := hrun
  obtain ⟨m', hm'⟩ := Option.isSome_iff_exists.mp hsome
  obtain ⟨es', u, hpre, hu, hlock⟩ := runs_taken (n := 2) hs hm hm' (by decide)
    (by simp [twoTasks, SchedEvent.Sets])
    (by simp [handOver, afterwards, MutexEvent.Sets, SchedEvent.Sets]) hstage
    (fun es' u hpre hu => hcount es' ((List.mem_inits _ _).mpr hpre) u hu) (by decide)
  exact ⟨s, m, es', u, hs, hm, hstage, hpre, hu, hlock⟩

end MutexSystem

end HevTunnel
