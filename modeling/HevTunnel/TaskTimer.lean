import HevTunnel.TaskRefine
import HevTunnel.Timespec

/-! # The timer of the task system

`hev-task-timer.c`: a task that sleeps puts a node from its own stack into the tree `sort_tree`, ordered
by the time at which the sleep ends, and waits.  At each poll the first node is compared with the clock,
and if its time is over its task is woken up.  Only this one: a task that comes back takes its node out,
and if it was the first one it looks at the next.

`TimerSystem` is a task system with its timer.  The functions of the scheduler from which the timer is
called are here with it; `TaskSystem` has them with the tasks that are woken up as a parameter. -/

namespace HevTunnel

/-- `HevTaskTimerNode` and the local variable `leftmost` of `hev_task_timer_wait`.  A node is named by its
task, because a task sleeps once at a time; `addr` is where it lies. -/
structure TimerNode where
  expire : Timespec
  addr : ℕ
  leftmost : Bool
deriving DecidableEq, Repr

/-- `hev_task_timer_node_cmp`. -/
def TimerNode.cmp (a b : TimerNode) : ℤ :=
  let res := a.expire.cmp b.expire
  if res ≠ 0 then res
  else if a.addr < b.addr then -1
  else if a.addr > b.addr then 1
  else 0

/-- A poll: the tasks whose events the reactor reports, and the clock after it. -/
structure Tick (α : Type) where
  woken : List α
  curr : Timespec
deriving DecidableEq, Repr

/-- A task system and its `HevTaskTimer`.  `now` is the last answer of the clock, and `checked` the time
with which the first node was compared last. -/
structure TimerSystem (Q T α : Type) where
  sched : TaskSystem Q α
  sortTree : T
  nodes : α → Option TimerNode
  now : Timespec
  checked : Timespec

namespace TimerSystem

variable {Q T α : Type} [DecidableEq α] [ReadyQueue Q α] [ReadyQueue T α]

/-- `hev_task_timer_new`, in a task system without sleepers. -/
def init (s : TaskSystem Q α) (now : Timespec) : TimerSystem Q T α :=
  ⟨s, ReadyQueue.empty, fun _ => none, now, now⟩

/-- The scheduler after a look at the first node. -/
def look (m : TimerSystem Q T α) (curr : Timespec) (s : TaskSystem Q α) : TimerSystem Q T α :=
  { m with sched := s, now := curr, checked := curr }

/-- `hev_task_timer_wakeup`, and `hev_task_timer_wake` with the clock that it reads. -/
def wakeup (m : TimerSystem Q T α) (curr : Timespec) : Option (TimerSystem Q T α) :=
  match ReadyQueue.first m.sortTree with
  | none => some (m.look curr m.sched)
  | some x =>
      (m.nodes x).bind fun node =>
        if curr.cmp node.expire < 0 then some (m.look curr m.sched)
        else (m.sched.wakeupTask x).map (m.look curr)

/-- `hev_task_timer_get_timeout`; the milliseconds become an `int`. -/
def getTimeout (m : TimerSystem Q T α) (curr : Timespec) : Option ℤ :=
  match ReadyQueue.first m.sortTree with
  | none => some (-1)
  | some x => (m.nodes x).map fun node => (BitVec.ofNat 32 (curr.getTime node.expire)).toInt

/-- The node of the current task in the tree: `hev_task_timer_wait` until it yields. -/
def arm (m : TimerSystem Q T α) (milliseconds addr : ℕ) (curr : Timespec) :
    Option (TimerSystem Q T α) :=
  m.sched.currentTask.bind fun c =>
    let node : TimerNode := ⟨curr.getExpire milliseconds, addr, false⟩
    let nodes := Function.update m.nodes c (some node)
    (ReadyQueue.insert (fun x => (nodes x).isSome)
        (fun this => (nodes this).map fun n => decide (node.cmp n < 0))
        (m.sched.totalTaskCount + 1) m.sortTree c).map fun tree =>
      -- the loop has only gone left if the node is now the first one
      let leftmost := decide (ReadyQueue.first tree = some c)
      { m with sortTree := tree, now := curr
               nodes := Function.update m.nodes c (some { node with leftmost := leftmost }) }

/-- `hev_task_timer_wait` after it has yielded, with its result. -/
def resume (m : TimerSystem Q T α) (curr : Timespec) : Option (ℕ × TimerSystem Q T α) :=
  m.sched.currentTask.bind fun c =>
    (m.nodes c).bind fun node =>
      let leftmost := node.leftmost || decide (ReadyQueue.first m.sortTree = some c)
      (ReadyQueue.erase (fun x => (m.nodes x).isSome) (m.sched.totalTaskCount + 1) m.sortTree c).bind
        fun tree =>
          let m := { m with sortTree := tree, now := curr, nodes := Function.update m.nodes c none }
          (if leftmost then m.wakeup curr else some m).map fun m => (curr.getTime node.expire, m)

/-! ### The scheduler -/

/-- `hev_task_system_io_poll`. -/
def ioPoll (m : TimerSystem Q T α) (tick : Tick α) : Option (TimerSystem Q T α) :=
  (m.sched.ioPoll tick.woken).bind fun s => wakeup { m with sched := s } tick.curr

/-- `do hev_task_system_io_poll (ctx, -1); while (!ctx->running_task_count)`. -/
def pollLoop (m : TimerSystem Q T α) : List (Tick α) → Option (TimerSystem Q T α)
  | [] => none
  | tick :: ticks =>
      (m.ioPoll tick).bind fun m => if m.sched.runningTaskCount = 0 then pollLoop m ticks else some m

/-- The polls of `hev_task_system_pick_current_task`. -/
def pollForTask (m : TimerSystem Q T α) (ticks : List (Tick α)) : Option (TimerSystem Q T α) :=
  if m.sched.runningTaskCount < m.sched.totalTaskCount then
    if m.sched.runningTaskCount ≠ 0 then ticks.head?.bind m.ioPoll else m.pollLoop ticks
  else some m

/-- `hev_task_system_pick_current_task`. -/
def pickCurrentTask (m : TimerSystem Q T α) (ticks : List (Tick α)) : Option (TimerSystem Q T α) :=
  (m.pollForTask ticks).bind fun m =>
    (ReadyQueue.first m.sched.runningTasks).map fun x =>
      { m with sched := { m.sched with currentTask := some x } }

/-- The end of `hev_task_system_schedule`. -/
def dispatch (m : TimerSystem Q T α) (ticks : List (Tick α)) : Option (TimerSystem Q T α) :=
  if m.sched.totalTaskCount = 0 then some { m with sched := { m.sched with currentTask := none } }
  else m.pickCurrentTask ticks

/-- `hev_task_system_schedule`. -/
def schedule (m : TimerSystem Q T α) (how : Leave) (ticks : List (Tick α)) :
    Option (TimerSystem Q T α) :=
  (m.sched.putBack how).bind fun s => dispatch { m with sched := s } ticks

/-- `hev_task_sleep` until it yields or returns. -/
def sleep (m : TimerSystem Q T α) (milliseconds addr : ℕ) (curr : Timespec) (ticks : List (Tick α)) :
    Option (TimerSystem Q T α) :=
  if milliseconds = 0 then some m
  else (m.arm milliseconds addr curr).bind fun m => m.schedule .waitio ticks

/-- The tasks that a poll wakes up: those of the reactor and that of the timer. -/
def wokenAt (m : TimerSystem Q T α) (tick : Tick α) : List α :=
  tick.woken ++ (ReadyQueue.first m.sortTree).toList.filter fun x =>
    (m.nodes x).any fun node => !decide (tick.curr.cmp node.expire < 0)

end TimerSystem

end HevTunnel
