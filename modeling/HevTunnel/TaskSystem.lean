import HevTunnel.GuardedRun
import HevTunnel.SessionTask

/-! # The scheduler of the task system

`hev-task-system-schedule.c` runs one task at a time.  The tasks that can run are in `running_tasks`,
ordered by `sched_key`; the first of them runs until it yields, waits or ends, and its key grows by its
priority each time.  A task that waits for I/O is not in the tree, and `hev_task_wakeup` puts it back.

The functions are those of `hev-task-system-schedule.c` and `hev-task.c`, for any implementation of
`running_tasks` (`ReadyQueue`): the program has a red-black tree, and the results about the scheduler
are proved for a list.  `none` is a call of `abort` or the use of a task that does not exist.

`SchedEvent` is what a task can do to the scheduler and what the reactor answers; `step` is the program
at such an event. -/

namespace HevTunnel

/-- The fields of `HevTask` that the scheduler reads.  A priority is between `HEV_TASK_PRIORITY_MIN`
and `HEV_TASK_PRIORITY_MAX`. -/
structure HevTask where
  schedKey : BitVec 64
  priority : Fin 16
  nextPriority : Fin 16
  state : TaskState
  refCount : ℤ
deriving DecidableEq, Repr

/-- What the scheduler needs of `running_tasks`.  The operations may look at tasks that exist, and
`insert` asks of each task that it meets whether the new one comes before it. -/
class ReadyQueue (Q : Type) (α : outParam Type) where
  empty : Q
  first : Q → Option α
  insert : (α → Bool) → (α → Option Bool) → ℕ → Q → α → Option Q
  erase : (α → Bool) → ℕ → Q → α → Option Q

/-- `HevTaskSystemContext` with the tasks in memory. -/
structure TaskSystem (Q α : Type) where
  totalTaskCount : ℕ
  runningTaskCount : ℕ
  currentTask : Option α
  runningTasks : Q
  tasks : α → Option HevTask

/-- How a task gives the processor back: the argument of `_longjmp` to the kernel context. -/
inductive Leave where
  /-- `HEV_TASK_SCHED_SWITCH`. -/
  | switch
  /-- `HEV_TASK_SCHED_WAITIO`. -/
  | waitio
  /-- `HEV_TASK_SCHED_REMOVE`. -/
  | remove
deriving DecidableEq, Repr

/-- What happens to a task system.  `polls` are the answers of `hev_task_system_io_poll`, each with the
tasks that it wakes up for the reactor or the timer. -/
inductive SchedEvent (α : Type) where
  /-- `hev_task_new`, with the memory for the task. -/
  | new (x : α)
  /-- `hev_task_ref`. -/
  | ref (x : α)
  /-- `hev_task_unref`. -/
  | unref (x : α)
  /-- `hev_task_set_priority`. -/
  | setPriority (x : α) (priority : ℤ)
  /-- `hev_task_run`. -/
  | run (x : α)
  /-- `hev_task_wakeup`. -/
  | wakeup (x : α)
  /-- `hev_task_system_run`. -/
  | start (polls : List (List α))
  /-- The current task gives the processor back. -/
  | leave (how : Leave) (polls : List (List α))
deriving DecidableEq, Repr

namespace TaskSystem

variable {Q α : Type} [DecidableEq α]

/-- The task has been run and has not ended. -/
def Live (s : TaskSystem Q α) (x : α) : Prop := ∃ t ∈ s.tasks x, t.state ≠ .stopped

instance (s : TaskSystem Q α) (x : α) : Decidable (s.Live x) :=
  inferInstanceAs (Decidable (∃ t ∈ s.tasks x, t.state ≠ .stopped))

/-- The memory of a task, `none` when it is freed. -/
def put (s : TaskSystem Q α) (x : α) (t : Option HevTask) : TaskSystem Q α :=
  { s with tasks := Function.update s.tasks x t }

/-- A write to a task. -/
def modify (s : TaskSystem Q α) (x : α) (f : HevTask → HevTask) : Option (TaskSystem Q α) :=
  (s.tasks x).map fun t => s.put x (some (f t))

def allocated (s : TaskSystem Q α) (x : α) : Bool := (s.tasks x).isSome

/-! ### `hev-task.c` -/

/-- `hev_task_new`: the memory is zero but for two fields. -/
def new (s : TaskSystem Q α) (x : α) : TaskSystem Q α :=
  s.put x (some ⟨0, 0, 8, .stopped, 1⟩)

/-- `hev_task_ref`. -/
def ref (s : TaskSystem Q α) (x : α) : Option (TaskSystem Q α) :=
  s.modify x fun t => { t with refCount := t.refCount + 1 }

/-- `hev_task_unref`. -/
def unref (s : TaskSystem Q α) (x : α) : Option (TaskSystem Q α) := do
  let t ← s.tasks x
  if t.refCount - 1 ≠ 0 then s.modify x fun t => { t with refCount := t.refCount - 1 }
  else some (s.put x none)

/-- The priority that `hev_task_set_priority` stores. -/
def clampPriority (priority : ℤ) : Fin 16 :=
  if priority < 0 then 0 else if 15 < priority then 15 else Fin.ofNat 16 priority.toNat

/-- `hev_task_set_priority`. -/
def setPriority (s : TaskSystem Q α) (x : α) (priority : ℤ) : Option (TaskSystem Q α) :=
  s.modify x fun t => { t with nextPriority := clampPriority priority }

/-! ### `hev-task-system-schedule.c` -/

/-- `hev_task_system_update_sched_key`; without a clock (`CLOCK_NONE`) the run time is 1. -/
def updateSchedKey (s : TaskSystem Q α) : Option (TaskSystem Q α) :=
  s.currentTask.bind fun c =>
    s.modify c fun t => { t with schedKey := t.schedKey + 1 * BitVec.ofNat 64 t.priority }

variable [ReadyQueue Q α]

/-- `hev_task_system_get_min_sched_key`. -/
def getMinSchedKey (s : TaskSystem Q α) : Option (BitVec 64) :=
  match ReadyQueue.first s.runningTasks with
  | some x => (s.tasks x).map HevTask.schedKey
  | none => some 0

/-- `_hev_task_system_insert_task`. -/
def linkTask (s : TaskSystem Q α) (x : α) : Option (TaskSystem Q α) := do
  let t ← s.tasks x
  let q ← ReadyQueue.insert s.allocated
    (fun this => (s.tasks this).map fun u => decide (t.schedKey < u.schedKey))
    (s.runningTaskCount + 1) s.runningTasks x
  pure { s with runningTasks := q }

/-- `hev_rbtree_cached_erase` from `running_tasks`. -/
def unlinkTask (s : TaskSystem Q α) (x : α) : Option (TaskSystem Q α) := do
  let q ← ReadyQueue.erase s.allocated (s.runningTaskCount + 1) s.runningTasks x
  pure { s with runningTasks := q }

/-- `hev_task_system_insert_task`. -/
def insertTask (s : TaskSystem Q α) (x : α) : Option (TaskSystem Q α) := do
  let s ← s.modify x fun t => { t with state := .running, priority := t.nextPriority }
  let s ← s.linkTask x
  pure { s with runningTaskCount := s.runningTaskCount + 1 }

/-- `hev_task_system_reinsert_current_task`. -/
def reinsertCurrentTask (s : TaskSystem Q α) : Option (TaskSystem Q α) := do
  let x ← s.currentTask
  let s ← s.modify x fun t => { t with priority := t.nextPriority }
  let s ← s.unlinkTask x
  s.linkTask x

/-- `hev_task_system_remove_current_task`. -/
def removeCurrentTask (s : TaskSystem Q α) (state : TaskState) : Option (TaskSystem Q α) := do
  let x ← s.currentTask
  let s ← s.modify x fun t => { t with state := state }
  let s ← s.unlinkTask x
  let s := { s with runningTaskCount := s.runningTaskCount - 1 }
  if state = .stopped then unref { s with totalTaskCount := s.totalTaskCount - 1 } x
  else s.modify x fun t => { t with schedKey := BitVec.ofNat 64 t.nextPriority }

/-- `hev_task_system_wakeup_task_with_context`. -/
def wakeupTask (s : TaskSystem Q α) (x : α) : Option (TaskSystem Q α) := do
  let t ← s.tasks x
  match t.state with
  | .running => some s
  | .stopped => none
  | .waiting =>
      let key ← s.getMinSchedKey
      let s ← s.modify x fun t => { t with schedKey := t.schedKey + key }
      s.insertTask x

/-- `hev_task_system_io_poll`, with the tasks of the events and of the timer. -/
def ioPoll (s : TaskSystem Q α) (woken : List α) : Option (TaskSystem Q α) :=
  woken.foldlM wakeupTask s

/-- `do hev_task_system_io_poll (ctx, -1); while (!ctx->running_task_count)`; `none` if the polls do
not suffice. -/
def pollLoop (s : TaskSystem Q α) : List (List α) → Option (TaskSystem Q α)
  | [] => none
  | woken :: polls =>
      (s.ioPoll woken).bind fun s => if s.runningTaskCount = 0 then pollLoop s polls else some s

/-- The polls of `hev_task_system_pick_current_task`. -/
def pollForTask (s : TaskSystem Q α) (polls : List (List α)) : Option (TaskSystem Q α) :=
  if s.runningTaskCount < s.totalTaskCount then
    if s.runningTaskCount ≠ 0 then s.ioPoll (polls.headD []) else s.pollLoop polls
  else some s

/-- `hev_task_system_pick_current_task`. -/
def pickCurrentTask (s : TaskSystem Q α) (polls : List (List α)) : Option (TaskSystem Q α) := do
  let s ← s.pollForTask polls
  let x ← ReadyQueue.first s.runningTasks
  pure { s with currentTask := some x }

/-- The end of `hev_task_system_schedule`: no task is left, or one is picked. -/
def dispatch (s : TaskSystem Q α) (polls : List (List α)) : Option (TaskSystem Q α) :=
  if s.totalTaskCount = 0 then some { s with currentTask := none } else s.pickCurrentTask polls

/-- The kernel context of `hev_task_system_schedule` when the current task comes back. -/
def putBack (s : TaskSystem Q α) : Leave → Option (TaskSystem Q α)
  | .switch => s.updateSchedKey.bind reinsertCurrentTask
  | .waitio => s.updateSchedKey.bind fun s => s.removeCurrentTask .waiting
  | .remove => s.removeCurrentTask .stopped

/-- `hev_task_system_schedule`. -/
def schedule (s : TaskSystem Q α) (how : Leave) (polls : List (List α)) :
    Option (TaskSystem Q α) :=
  (s.putBack how).bind fun s => s.dispatch polls

/-- What `hev_task_system_run_new_task` adds to the key. -/
def newTaskKey (s : TaskSystem Q α) : Option (BitVec 64) :=
  if s.currentTask.isSome then s.getMinSchedKey else some 0

/-- `hev_task_system_run_new_task`. -/
def runNewTask (s : TaskSystem Q α) (x : α) : Option (TaskSystem Q α) := do
  let key ← s.newTaskKey
  let s ← s.modify x fun t => { t with schedKey := t.schedKey + key }
  let s ← s.insertTask x
  pure { s with totalTaskCount := s.totalTaskCount + 1 }

/-- `hev_task_run`. -/
def run (s : TaskSystem Q α) (x : α) : Option (TaskSystem Q α) := do
  let t ← s.tasks x
  if t.state ≠ .stopped then some s
  else
    let s ← s.modify x fun t =>
      { t with priority := t.nextPriority, schedKey := BitVec.ofNat 64 t.nextPriority }
    s.runNewTask x

/-! ### Events -/

/-- The system before its first task; memory is not in use. -/
def init : TaskSystem Q α := ⟨0, 0, none, ReadyQueue.empty, fun _ => none⟩

/-- The program at an event. -/
def exec (s : TaskSystem Q α) : SchedEvent α → Option (TaskSystem Q α)
  | .new x => some (s.new x)
  | .ref x => s.ref x
  | .unref x => s.unref x
  | .setPriority x p => s.setPriority x p
  | .run x => s.run x
  | .wakeup x => s.wakeupTask x
  | .start polls => s.dispatch polls
  | .leave how polls => s.schedule how polls

omit [DecidableEq α] [ReadyQueue Q α]

/-- What the polls answer: they wake tasks that are live and not the one that has just ended, and when
no task can run one of them wakes a task. -/
def Answers (s : TaskSystem Q α) (ended : Option α) (idle : Prop) (polls : List (List α)) : Prop :=
  (∀ woken ∈ polls, ∀ x ∈ woken, s.Live x ∧ ended ≠ some x) ∧ (idle → ∃ woken ∈ polls, woken ≠ [])

end TaskSystem

open TaskSystem in
/-- When an event can happen.  The allocator returns memory that is not in use, and a task is used
while it exists.  The task system has a reference to a task from `hev_task_run` until it ends, which
nobody else gives up.  Only live tasks are woken up, and a task that runs gives the processor back. -/
def SchedEvent.Possible {Q α : Type} (s : TaskSystem Q α) : SchedEvent α → Prop
  | .new x => s.tasks x = none
  | .ref x => s.tasks x ≠ none
  | .unref x => ∃ t ∈ s.tasks x, (if t.state = .stopped then 1 else 2) ≤ t.refCount
  | .setPriority x _ => s.tasks x ≠ none
  | .run x => s.tasks x ≠ none
  | .wakeup x => s.Live x
  | .start polls => s.currentTask = none ∧
      s.Answers none (s.runningTaskCount = 0 ∧ s.totalTaskCount ≠ 0) polls
  | .leave .switch polls => s.currentTask ≠ none ∧ s.Answers none False polls
  | .leave .waitio polls => s.currentTask ≠ none ∧ s.Answers none (s.runningTaskCount = 1) polls
  | .leave .remove polls => s.currentTask ≠ none ∧
      s.Answers s.currentTask (s.runningTaskCount = 1 ∧ s.totalTaskCount ≠ 1) polls

section decidable
variable {Q α : Type} [DecidableEq α] (s : TaskSystem Q α)

instance (ended : Option α) (idle : Prop) [Decidable idle] (polls : List (List α)) :
    Decidable (s.Answers ended idle polls) :=
  inferInstanceAs (Decidable (_ ∧ _))

instance SchedEvent.decidablePossible : (e : SchedEvent α) → Decidable (e.Possible s)
  | .new x => inferInstanceAs (Decidable (s.tasks x = none))
  | .ref x => inferInstanceAs (Decidable (s.tasks x ≠ none))
  | .unref x =>
      inferInstanceAs (Decidable (∃ t ∈ s.tasks x, (if t.state = .stopped then 1 else 2) ≤ t.refCount))
  | .setPriority x _ => inferInstanceAs (Decidable (s.tasks x ≠ none))
  | .run x => inferInstanceAs (Decidable (s.tasks x ≠ none))
  | .wakeup x => inferInstanceAs (Decidable (s.Live x))
  | .start _ => inferInstanceAs (Decidable (_ ∧ _))
  | .leave .switch _ => inferInstanceAs (Decidable (_ ∧ _))
  | .leave .waitio _ => inferInstanceAs (Decidable (_ ∧ _))
  | .leave .remove _ => inferInstanceAs (Decidable (_ ∧ _))

end decidable

namespace TaskSystem

variable {Q α : Type} [DecidableEq α] [ReadyQueue Q α]

/-- The program after some events; `none` if one of them could not happen or ended in `abort`. -/
def runs : TaskSystem Q α → List (SchedEvent α) → Option (TaskSystem Q α) :=
  GuardedRun.runs SchedEvent.Possible exec

end TaskSystem

end HevTunnel
