import HevTunnel.FairQueue
import HevTunnel.TaskSystem

/-! # The scheduler with a list of tasks

Here `running_tasks` is a list that is sorted by the keys.  For each function of the scheduler there is
one equation that says what it does to the list and to the tasks.  `Edit` and `Effect` say what an event
can do, without the functions. -/

namespace HevTunnel

open FairQueue

instance {α : Type} [DecidableEq α] : ReadyQueue (List α) α where
  empty := []
  first := List.head?
  insert _ less _ ns x := some (ns.orderedInsert (fun _ y => less y = some true) x)
  erase _ _ ns x := if x ∈ ns then some (ns.erase x) else none

/-- The task after `hev_task_system_insert_task`, when `key` has been added to its key. -/
def HevTask.woken (t : HevTask) (key : BitVec 64) : HevTask :=
  { t with schedKey := t.schedKey + key, state := .running, priority := t.nextPriority }

/-- The task after `hev_task_run`. -/
def HevTask.started (t : HevTask) (key : BitVec 64) : HevTask :=
  { t with schedKey := BitVec.ofNat 64 t.nextPriority + key, state := .running,
           priority := t.nextPriority }

/-- The task after `HEV_TASK_SCHED_SWITCH`. -/
def HevTask.switched (t : HevTask) : HevTask :=
  { t with schedKey := t.schedKey + BitVec.ofNat 64 t.priority, priority := t.nextPriority }

/-- The task after `HEV_TASK_SCHED_WAITIO`. -/
def HevTask.parked (t : HevTask) : HevTask :=
  { t with schedKey := BitVec.ofNat 64 t.nextPriority, state := .waiting }

/-- The task after `HEV_TASK_SCHED_REMOVE`, `none` if that has freed it. -/
def HevTask.ended (t : HevTask) : Option HevTask :=
  if t.refCount - 1 ≠ 0 then some { t with state := .stopped, refCount := t.refCount - 1 } else none

namespace TaskSystem

variable {α : Type} [DecidableEq α]

section views
variable {Q : Type}

/-- The keys of the tasks. -/
def keyOf (tasks : α → Option HevTask) (x : α) : ℕ := (tasks x).elim 0 fun t => t.schedKey.toNat

/-- The state of a task, `none` if there is none. -/
def state (s : TaskSystem Q α) (x : α) : Option TaskState := (s.tasks x).map HevTask.state

omit [DecidableEq α] in
theorem state_eq {s : TaskSystem Q α} {x : α} {t : HevTask} (hx : s.tasks x = some t) :
    s.state x = some t.state := by
  rw [state, hx, Option.map_some]

theorem keyOf_update_self (tasks : α → Option HevTask) (x : α) (t : HevTask) :
    keyOf (Function.update tasks x (some t)) x = t.schedKey.toNat := by
  rw [keyOf, Function.update_self]
  rfl

theorem keyOf_update_of_ne {x y : α} (h : y ≠ x) (tasks : α → Option HevTask) (t : Option HevTask) :
    keyOf (Function.update tasks x t) y = keyOf tasks y := by
  rw [keyOf, Function.update_of_ne h, keyOf]

/-- A write that keeps the key. -/
theorem keyOf_update_same {tasks : α → Option HevTask} {x : α} {t u : HevTask}
    (hx : tasks x = some t) (hk : u.schedKey = t.schedKey) (y : α) :
    keyOf (Function.update tasks x (some u)) y = keyOf tasks y := by
  by_cases hy : y = x
  · rw [hy, keyOf_update_self, keyOf, hx, hk]
    rfl
  · exact keyOf_update_of_ne hy ..

end views

variable {v : TaskSystem (List α) α} {x : α} {t : HevTask}

/-- A task enters the list. -/
def enlist (v : TaskSystem (List α) α) (x : α) (t : HevTask) : TaskSystem (List α) α :=
  let tasks := Function.update v.tasks x (some t)
  { v with tasks := tasks, runningTasks := enqueue (keyOf tasks) x v.runningTasks,
           runningTaskCount := v.runningTaskCount + 1 }

/-- A task leaves the list. -/
def dismiss (v : TaskSystem (List α) α) (x : α) (t : Option HevTask) : TaskSystem (List α) α :=
  { v with tasks := Function.update v.tasks x t, runningTasks := v.runningTasks.erase x,
           runningTaskCount := v.runningTaskCount - 1 }

/-- The key of the first task, 0 if there is none. -/
def minKey (v : TaskSystem (List α) α) : BitVec 64 := v.getMinSchedKey.getD 0

/-! ### The functions on lists -/

theorem linkTask_eq (hx : v.tasks x = some t) :
    v.linkTask x = some { v with runningTasks := enqueue (keyOf v.tasks) x v.runningTasks } := by
  have hkx : keyOf v.tasks x = t.schedKey.toNat := by
    rw [keyOf, hx]
    rfl
  have hless : ∀ y ∈ v.runningTasks,
      ((v.tasks y).map fun u => decide (t.schedKey < u.schedKey)) = some true ↔
        keyOf v.tasks x < keyOf v.tasks y := by
    intro y _
    rw [hkx, keyOf]
    cases v.tasks y with
    | none => simp
    | some u => simp [BitVec.lt_def]
  simp only [linkTask, hx, ReadyQueue.insert, Option.bind_eq_bind, Option.bind_some, Option.pure_def]
  rw [orderedInsert_eq_enqueue hless]

section put
variable {Q : Type} {s : TaskSystem Q α} {x : α} {t : HevTask}

theorem put_tasks (s : TaskSystem Q α) (x : α) (t : Option HevTask) :
    (s.put x t).tasks = Function.update s.tasks x t := rfl

@[simp] theorem put_tasks_self (s : TaskSystem Q α) (x : α) (t : Option HevTask) :
    (s.put x t).tasks x = t := Function.update_self ..

@[simp] theorem put_put (s : TaskSystem Q α) (x : α) (t u : Option HevTask) :
    (s.put x t).put x u = s.put x u := by
  simp only [put, Function.update_idem]

theorem state_put (s : TaskSystem Q α) (x y : α) (u : Option HevTask) :
    (s.put x u).state y = if y = x then u.map HevTask.state else s.state y := by
  rw [state, put_tasks, state]
  split_ifs with h
  · rw [h, Function.update_self]
  · rw [Function.update_of_ne h]

theorem modify_eq (hx : s.tasks x = some t) (f : HevTask → HevTask) :
    s.modify x f = some (s.put x (some (f t))) := by
  rw [modify, hx, Option.map_some]

end put

theorem insertTask_eq (hx : v.tasks x = some t) :
    v.insertTask x = some (v.enlist x { t with state := .running, priority := t.nextPriority }) := by
  rw [insertTask, modify_eq hx, Option.bind_eq_bind, Option.bind_some,
    linkTask_eq (put_tasks_self ..)]
  rfl

@[simp] theorem enlist_put (v : TaskSystem (List α) α) (x : α) (u : Option HevTask) (t : HevTask) :
    (v.put x u).enlist x t = v.enlist x t := by
  simp only [enlist, put, Function.update_idem]

theorem unlinkTask_eq (hx : x ∈ v.runningTasks) :
    v.unlinkTask x = some { v with runningTasks := v.runningTasks.erase x } := by
  simp only [unlinkTask, ReadyQueue.erase, if_pos hx, Option.bind_eq_bind, Option.bind_some,
    Option.pure_def]

theorem wakeupTask_running (hx : v.tasks x = some t) (ht : t.state = .running) :
    v.wakeupTask x = some v := by
  simp only [wakeupTask, hx, ht, Option.bind_eq_bind, Option.bind_some]

theorem wakeupTask_waiting (hx : v.tasks x = some t) (ht : t.state = .waiting)
    (hmin : v.getMinSchedKey = some v.minKey) :
    v.wakeupTask x = some (v.enlist x (t.woken v.minKey)) := by
  simp only [wakeupTask, hx, ht, hmin, modify_eq hx, Option.bind_eq_bind, Option.bind_some,
    insertTask_eq (put_tasks_self ..), enlist_put]
  rfl

theorem run_live (hx : v.tasks x = some t) (ht : t.state ≠ .stopped) : v.run x = some v := by
  simp only [run, hx, Option.bind_eq_bind, Option.bind_some, if_pos ht]

/-- The first key does not depend on the other tasks. -/
theorem getMinSchedKey_put (hx : v.runningTasks.head? ≠ some x) (u : Option HevTask) :
    (v.put x u).getMinSchedKey = v.getMinSchedKey := by
  simp only [getMinSchedKey, ReadyQueue.first, put]
  cases hy : v.runningTasks.head? with
  | none => rfl
  | some y =>
      have hne : y ≠ x := by
        rintro rfl
        exact hx hy
      simp only [Function.update_of_ne hne]

theorem runNewTask_eq {key : BitVec 64} (hx : v.tasks x = some t)
    (hkey : v.newTaskKey = some key) :
    v.runNewTask x = some { v.enlist x (t.woken key) with
      totalTaskCount := v.totalTaskCount + 1 } := by
  simp only [runNewTask, hkey, modify_eq hx, Option.bind_eq_bind, Option.bind_some,
    insertTask_eq (put_tasks_self ..), enlist_put]
  rfl

theorem run_stopped {key : BitVec 64} (hx : v.tasks x = some t) (ht : t.state = .stopped)
    (hkey : v.newTaskKey = some key)
    (hfirst : v.runningTasks.head? ≠ some x) :
    v.run x = some { v.enlist x (t.started key) with totalTaskCount := v.totalTaskCount + 1 } := by
  simp only [run, hx, modify_eq hx, ht, Option.bind_eq_bind, Option.bind_some, ne_eq,
    not_true_eq_false, if_false]
  have hkey' : ∀ u, (v.put x u).newTaskKey = some key := by
    intro u
    rw [newTaskKey, getMinSchedKey_put hfirst]
    exact hkey
  rw [runNewTask_eq (put_tasks_self ..) (hkey' _), enlist_put]
  rfl

/-- The current task goes back into the list. -/
def requeue (v : TaskSystem (List α) α) (x : α) (t : HevTask) : TaskSystem (List α) α :=
  { v.put x (some t) with
    runningTasks := enqueue (keyOf (v.put x (some t)).tasks) x (v.runningTasks.erase x) }

@[simp] theorem requeue_put (v : TaskSystem (List α) α) (x : α) (u : Option HevTask) (t : HevTask) :
    (v.put x u).requeue x t = v.requeue x t := by
  simp only [requeue, put_put]
  rfl

@[simp] theorem dismiss_put (v : TaskSystem (List α) α) (x : α) (u t : Option HevTask) :
    (v.put x u).dismiss x t = v.dismiss x t := by
  simp only [dismiss, put, Function.update_idem]

theorem put_dismiss (v : TaskSystem (List α) α) (x : α) (u t : Option HevTask) :
    (v.dismiss x u).put x t = v.dismiss x t := by
  simp only [dismiss, put, Function.update_idem]

theorem reinsertCurrentTask_eq (hx : v.currentTask = some x) (hmem : x ∈ v.runningTasks)
    (ht : v.tasks x = some t) :
    v.reinsertCurrentTask = some (v.requeue x { t with priority := t.nextPriority }) := by
  have hmem' : ∀ u, x ∈ (v.put x u).runningTasks := fun _ => hmem
  rw [reinsertCurrentTask, hx, Option.bind_eq_bind, Option.bind_some, modify_eq ht,
    Option.bind_eq_bind, Option.bind_some, unlinkTask_eq (hmem' _), Option.bind_some]
  exact linkTask_eq (put_tasks_self v x _)

theorem removeCurrentTask_waiting (hx : v.currentTask = some x) (hmem : x ∈ v.runningTasks)
    (ht : v.tasks x = some t) :
    v.removeCurrentTask .waiting = some (v.dismiss x (some t.parked)) := by
  have hmem' : ∀ u, x ∈ (v.put x u).runningTasks := fun _ => hmem
  rw [removeCurrentTask, hx, Option.bind_eq_bind, Option.bind_some, modify_eq ht,
    Option.bind_eq_bind, Option.bind_some, unlinkTask_eq (hmem' _), Option.bind_some,
    if_neg (by decide)]
  refine (modify_eq (t := { t with state := .waiting }) ?_ _).trans ?_
  · exact put_tasks_self v x _
  simp only [put, dismiss, Function.update_idem]
  rfl

theorem unref_eq {Q : Type} {s : TaskSystem Q α} (hx : s.tasks x = some t) :
    s.unref x = some (s.put x
      (if t.refCount - 1 ≠ 0 then some { t with refCount := t.refCount - 1 } else none)) := by
  rw [unref, hx, Option.bind_eq_bind, Option.bind_some]
  split_ifs with h
  · rw [modify_eq hx]
  · rfl

theorem removeCurrentTask_stopped (hx : v.currentTask = some x) (hmem : x ∈ v.runningTasks)
    (ht : v.tasks x = some t) :
    v.removeCurrentTask .stopped =
      some { v.dismiss x t.ended with totalTaskCount := v.totalTaskCount - 1 } := by
  have hmem' : ∀ u, x ∈ (v.put x u).runningTasks := fun _ => hmem
  rw [removeCurrentTask, hx, Option.bind_eq_bind, Option.bind_some, modify_eq ht,
    Option.bind_eq_bind, Option.bind_some, unlinkTask_eq (hmem' _), Option.bind_some, if_pos rfl]
  refine (unref_eq (t := { t with state := .stopped }) ?_).trans ?_
  · exact put_tasks_self v x _
  simp only [put, dismiss, Function.update_idem]
  rfl

theorem putBack_switch (hx : v.currentTask = some x) (hmem : x ∈ v.runningTasks)
    (ht : v.tasks x = some t) : v.putBack .switch = some (v.requeue x t.switched) := by
  rw [putBack, updateSchedKey, hx, Option.bind_some, modify_eq ht, Option.bind_some,
    reinsertCurrentTask_eq (v := v.put x _) hx hmem (put_tasks_self ..), requeue_put]
  simp [HevTask.switched]

theorem putBack_waitio (hx : v.currentTask = some x) (hmem : x ∈ v.runningTasks)
    (ht : v.tasks x = some t) : v.putBack .waitio = some (v.dismiss x (some t.parked)) := by
  rw [putBack, updateSchedKey, hx, Option.bind_some, modify_eq ht, Option.bind_some,
    removeCurrentTask_waiting (v := v.put x _) hx hmem (put_tasks_self ..), dismiss_put]
  rfl

/-- What the kernel context does with the current task `x`. -/
def released (v : TaskSystem (List α) α) (x : α) (t : HevTask) : Leave → TaskSystem (List α) α
  | .switch => v.requeue x t.switched
  | .waitio => v.dismiss x (some t.parked)
  | .remove => { v.dismiss x t.ended with totalTaskCount := v.totalTaskCount - 1 }

theorem putBack_eq (hx : v.currentTask = some x) (hmem : x ∈ v.runningTasks)
    (ht : v.tasks x = some t) (how : Leave) : v.putBack how = some (v.released x t how) := by
  cases how with
  | switch => exact putBack_switch hx hmem ht
  | waitio => exact putBack_waitio hx hmem ht
  | remove => exact removeCurrentTask_stopped hx hmem ht

/-! ### What an event does -/

/-- A change that leaves the current task alone.  `P` are the priorities that are given to tasks. -/
inductive Edit (P : Fin 16 → Prop) (v : TaskSystem (List α) α) : TaskSystem (List α) α → Prop
  | new {x : α} : v.tasks x = none → Edit P v (v.new x)
  | count {x : α} {t : HevTask} {n : ℤ} :
      v.tasks x = some t → 0 < n → Edit P v (v.put x (some { t with refCount := n }))
  | priority {x : α} {t : HevTask} {p : Fin 16} :
      v.tasks x = some t → P p → Edit P v (v.put x (some { t with nextPriority := p }))
  | free {x : α} {t : HevTask} :
      v.tasks x = some t → t.state = .stopped → Edit P v (v.put x none)
  | wake {x : α} {t : HevTask} :
      v.tasks x = some t → t.state = .waiting → Edit P v (v.enlist x (t.woken v.minKey))
  | start {x : α} {t : HevTask} :
      v.tasks x = some t → t.state = .stopped →
        Edit P v { v.enlist x (t.started (if v.currentTask.isSome then v.minKey else 0)) with
          totalTaskCount := v.totalTaskCount + 1 }

/-- The first task becomes the current one. -/
def picked (v : TaskSystem (List α) α) : TaskSystem (List α) α :=
  { v with currentTask := v.runningTasks.head? }

/-- What an event does: the current task may leave, changes follow, and then a task is picked.  If there
is none to pick, no task is left. -/
inductive Effect (P : Fin 16 → Prop) (v : TaskSystem (List α) α) :
    SchedEvent α → TaskSystem (List α) α → Prop
  | edits {e : SchedEvent α} {v' : TaskSystem (List α) α} (hstart : ∀ polls, e ≠ .start polls)
      (hleave : ∀ how polls, e ≠ .leave how polls) :
      Relation.ReflTransGen (Edit P) v v' → Effect P v e v'
  | start {polls : List (List α)} {v' : TaskSystem (List α) α} :
      Relation.ReflTransGen (Edit P) v v' → (v'.runningTasks = [] → v'.totalTaskCount = 0) →
        Effect P v (.start polls) v'.picked
  | leave {how : Leave} {polls : List (List α)} {x : α} {t : HevTask} {v' : TaskSystem (List α) α} :
      v.currentTask = some x → x ∈ v.runningTasks → v.tasks x = some t →
        Relation.ReflTransGen (Edit P) (v.released x t how) v' →
          (v'.runningTasks = [] → v'.totalTaskCount = 0) → Effect P v (.leave how polls) v'.picked

end TaskSystem

/-- The event gives tasks only priorities that are `P`. -/
def SchedEvent.Sets {α : Type} (P : Fin 16 → Prop) : SchedEvent α → Prop
  | .setPriority _ p => P (TaskSystem.clampPriority p)
  | _ => True

end HevTunnel
