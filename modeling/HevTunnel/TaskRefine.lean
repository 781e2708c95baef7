import HevTunnel.TaskInv

/-! # Ready queues that behave like lists

`LawfulReadyQueue` says when an implementation of `running_tasks` behaves like a sorted list.  The
scheduler with such a queue refines the one with a list (`Refines.exec`): at an event that can happen
both end without `abort`, with the same tasks, counters and current task. -/

namespace HevTunnel

open FairQueue

/-- A ready queue whose operations are those of a list of tasks.  `Lists alive q ns` says that `q` holds
the list `ns` when the tasks that exist are those of `alive`; it does not depend on the others. -/
class LawfulReadyQueue (Q : Type) {α : outParam Type} [DecidableEq α] [ReadyQueue Q α] where
  Lists : (α → Bool) → Q → List α → Prop
  lists_empty (alive : α → Bool) : Lists alive ReadyQueue.empty []
  lists_frame {alive alive' : α → Bool} {q : Q} {ns : List α} :
    Lists alive q ns → (∀ y ∈ ns, alive' y) → Lists alive' q ns
  lists_first {alive : α → Bool} {q : Q} {ns : List α} :
    Lists alive q ns → ReadyQueue.first q = ns.head?
  lists_insert {alive : α → Bool} {q : Q} {ns : List α} {x : α} {fuel : ℕ}
      {less : α → Option Bool} {r : α → α → Prop} [DecidableRel r] :
    Lists alive q ns → (∀ y ∈ ns, less y = some (decide (r x y))) →
      ns.Pairwise (fun y z => r x y → r x z) → alive x → x ∉ ns → ns.length < fuel →
        ∃ q', ReadyQueue.insert alive less fuel q x = some q' ∧ Lists alive q' (ns.orderedInsert r x)
  lists_erase {alive : α → Bool} {q : Q} {ns : List α} {x : α} {fuel : ℕ} :
    Lists alive q ns → x ∈ ns → ns.length < fuel →
      ∃ q', ReadyQueue.erase alive fuel q x = some q' ∧ Lists alive q' (ns.erase x)

instance {α : Type} [DecidableEq α] : LawfulReadyQueue (List α) where
  Lists _ q ns := q = ns
  lists_empty _ := rfl
  lists_frame h _ := h
  lists_first h := congrArg List.head? h
  lists_insert := by
    rintro _ q _ x _ less r _ rfl hless _ _ _ _
    refine ⟨_, rfl, orderedInsert_congr fun y hy => ?_⟩
    rw [hless y hy]
    simp
  lists_erase := by
    rintro _ q _ x _ rfl hx _
    exact ⟨_, if_pos hx, rfl⟩

namespace TaskSystem

variable {Q α : Type} [DecidableEq α] [ReadyQueue Q α] [LawfulReadyQueue Q]

/-- The two systems agree, and the queue of the first holds the list of the second. -/
structure Refines (s : TaskSystem Q α) (v : TaskSystem (List α) α) : Prop where
  total : s.totalTaskCount = v.totalTaskCount
  count : s.runningTaskCount = v.runningTaskCount
  current : s.currentTask = v.currentTask
  tasks : s.tasks = v.tasks
  queue : LawfulReadyQueue.Lists s.allocated s.runningTasks v.runningTasks
  alive : ∀ y ∈ v.runningTasks, s.allocated y

/-- The list is in order, and the counter is not too small. -/
structure Ordered (v : TaskSystem (List α) α) : Prop where
  sorted : Sorted (keyOf v.tasks) v.runningTasks
  count : v.runningTasks.length ≤ v.runningTaskCount

omit [DecidableEq α] in
theorem Inv.ordered {v : TaskSystem (List α) α} {ws : List α} (h : Inv v ws) : Ordered v :=
  ⟨h.sorted, h.count.ge⟩

variable {s : TaskSystem Q α} {v v' : TaskSystem (List α) α} {ws : List α} {x : α} {t : HevTask}

theorem Ordered.put (h : Ordered v) (hx : x ∉ v.runningTasks) (u : Option HevTask) :
    Ordered (v.put x u) :=
  ⟨Inv.sorted_update h.sorted hx u, h.count⟩

namespace Refines

theorem tasks_eq (h : Refines s v) (ht : v.tasks x = some t) : s.tasks x = some t := by
  rw [h.tasks, ht]

theorem init : Refines (TaskSystem.init : TaskSystem Q α) (TaskSystem.init : TaskSystem (List α) α) :=
  ⟨rfl, rfl, rfl, rfl, LawfulReadyQueue.lists_empty _, by simp [TaskSystem.init, ReadyQueue.empty]⟩

/-- A write to a task; a task in the list is not freed. -/
theorem put (h : Refines s v) {u : Option HevTask} (hu : x ∈ v.runningTasks → u.isSome) :
    Refines (s.put x u) (v.put x u) := by
  have halive : ∀ y ∈ v.runningTasks, (s.put x u).allocated y := by
    intro y hy
    rw [allocated, put_tasks]
    by_cases hyx : y = x
    · rw [hyx, Function.update_self]
      exact hu (hyx ▸ hy)
    · rw [Function.update_of_ne hyx]
      exact h.alive y hy
  refine ⟨h.total, h.count, h.current, ?_, LawfulReadyQueue.lists_frame h.queue halive, halive⟩
  rw [put_tasks, put_tasks, h.tasks]

theorem getMinSchedKey (h : Refines s v) : s.getMinSchedKey = v.getMinSchedKey := by
  rw [TaskSystem.getMinSchedKey, TaskSystem.getMinSchedKey, LawfulReadyQueue.lists_first h.queue,
    h.tasks]
  rfl

theorem linkTask (h : Refines s v) (ho : Ordered v) (ht : v.tasks x = some t)
    (hx : x ∉ v.runningTasks) :
    ∃ s', s.linkTask x = some s' ∧
      Refines s' { v with runningTasks := enqueue (keyOf v.tasks) x v.runningTasks } := by
  have hless : ∀ y ∈ v.runningTasks,
      ((s.tasks y).map fun u => decide (t.schedKey < u.schedKey)) =
        some (decide (keyOf v.tasks x < keyOf v.tasks y)) := by
    intro y hy
    obtain ⟨u, hu⟩ := Option.isSome_iff_exists.mp (h.alive y hy)
    have hv : v.tasks y = some u := by rw [← h.tasks, hu]
    simp [keyOf, ht, hu, hv, BitVec.lt_def]
  have hmono : v.runningTasks.Pairwise fun y z =>
      keyOf v.tasks x < keyOf v.tasks y → keyOf v.tasks x < keyOf v.tasks z :=
    ho.sorted.imp fun hyz hxy => hxy.trans_le hyz
  have halive : s.allocated x := by
    rw [allocated, h.tasks_eq ht]
    rfl
  have hfuel : v.runningTasks.length < s.runningTaskCount + 1 := by
    rw [h.count]
    exact Nat.lt_succ_of_le ho.count
  obtain ⟨q, hq, hlists⟩ := LawfulReadyQueue.lists_insert
    (r := fun y z => keyOf v.tasks y < keyOf v.tasks z) h.queue hless hmono halive hx hfuel
  refine ⟨{ s with runningTasks := q }, ?_, h.total, h.count, h.current, h.tasks, hlists, ?_⟩
  · simp only [TaskSystem.linkTask, h.tasks_eq ht, hq, Option.bind_eq_bind, Option.bind_some,
      Option.pure_def]
  · intro y hy
    rcases mem_enqueue.mp hy with rfl | hy
    · exact halive
    · exact h.alive y hy

theorem unlinkTask (h : Refines s v) (hcount : v.runningTasks.length ≤ v.runningTaskCount)
    (hx : x ∈ v.runningTasks) :
    ∃ s', s.unlinkTask x = some s' ∧
      Refines s' { v with runningTasks := v.runningTasks.erase x } := by
  have hfuel : v.runningTasks.length < s.runningTaskCount + 1 := by
    rw [h.count]
    exact Nat.lt_succ_of_le hcount
  obtain ⟨q, hq, hlists⟩ := LawfulReadyQueue.lists_erase h.queue hx hfuel
  refine ⟨{ s with runningTasks := q }, ?_, h.total, h.count, h.current, h.tasks, hlists,
    fun y hy => h.alive y (List.mem_of_mem_erase hy)⟩
  simp only [TaskSystem.unlinkTask, hq, Option.bind_eq_bind, Option.bind_some, Option.pure_def]

theorem insertTask (h : Refines s v) (ho : Ordered v) (ht : v.tasks x = some t)
    (hx : x ∉ v.runningTasks) :
    ∃ s', s.insertTask x = some s' ∧
      Refines s' (v.enlist x { t with state := .running, priority := t.nextPriority }) := by
  obtain ⟨s', hlink, h'⟩ := (h.put (x := x)
    (u := some { t with state := .running, priority := t.nextPriority }) fun _ => rfl).linkTask
    (ho.put hx _) (put_tasks_self ..) hx
  refine ⟨{ s' with runningTaskCount := s'.runningTaskCount + 1 }, ?_, h'.total, ?_, h'.current,
    h'.tasks, h'.queue, h'.alive⟩
  · simp only [TaskSystem.insertTask, modify_eq (h.tasks_eq ht), hlink, Option.bind_eq_bind,
      Option.bind_some, Option.pure_def]
  · exact congrArg (· + 1) h'.count

/-- A task whose key has been raised enters the list. -/
theorem enlist (h : Refines s v) (hinv : Inv v ws) (ht : v.tasks x = some t)
    (hx : x ∉ v.runningTasks) (key : BitVec 64) :
    ∃ s', ((s.modify x fun t => { t with schedKey := t.schedKey + key }).bind
        fun s => s.insertTask x) = some s' ∧ Refines s' (v.enlist x (t.woken key)) := by
  obtain ⟨s', hins, h'⟩ := (h.put (x := x) (u := some { t with schedKey := t.schedKey + key })
    fun _ => rfl).insertTask (hinv.ordered.put hx _) (put_tasks_self ..) hx
  rw [enlist_put] at h'
  refine ⟨s', ?_, h'⟩
  rw [modify_eq (h.tasks_eq ht), Option.bind_some, hins]

theorem wakeupTask (h : Refines s v) (hinv : Inv v ws) (hx : v.Live x)
    (hv : v.wakeupTask x = some v') : ∃ s', s.wakeupTask x = some s' ∧ Refines s' v' := by
  obtain ⟨t, ht, hs⟩ := hx
  cases hst : t.state with
  | stopped => exact absurd hst hs
  | running =>
      obtain rfl := Option.some_inj.mp (hv.symm.trans (wakeupTask_running ht hst))
      refine ⟨s, ?_, h⟩
      simp only [TaskSystem.wakeupTask, h.tasks_eq ht, hst, Option.bind_eq_bind, Option.bind_some]
  | waiting =>
      obtain rfl := Option.some_inj.mp
        (hv.symm.trans (wakeupTask_waiting ht hst hinv.getMinSchedKey))
      have hnot := hinv.not_mem_running ((state_eq ht).trans (by rw [hst])) (by decide)
      obtain ⟨s', hs', h'⟩ := h.enlist hinv ht hnot v.minKey
      refine ⟨s', ?_, h'⟩
      simpa only [TaskSystem.wakeupTask, h.tasks_eq ht, hst, h.getMinSchedKey, hinv.getMinSchedKey,
        Option.bind_eq_bind, Option.bind_some] using hs'

/-- A wake-up at both levels, with what is known of the state after it. -/
theorem wakeupTask_edits (h : Refines s v) (hinv : ∃ ws, Inv v ws) (hx : v.Live x)
    (hv : v.wakeupTask x = some v') : ∃ s', s.wakeupTask x = some s' ∧ Refines s' v' ∧
      Relation.ReflTransGen (Edit fun _ => True) v v' := by
  obtain ⟨ws, hinv⟩ := hinv
  obtain ⟨s', hs', h'⟩ := h.wakeupTask hinv hx hv
  obtain ⟨v₁, hv₁, hw⟩ := hinv.wakeupTask (P := fun _ => True) hx
  obtain rfl := Option.some_inj.mp (hv.symm.trans hv₁)
  exact ⟨s', hs', h', hw.edits⟩

theorem ioPoll {xs : List α} (h : Refines s v) (hinv : ∃ ws, Inv v ws)
    (hxs : ∀ x ∈ xs, v.Live x) (hv : v.ioPoll xs = some v') :
    ∃ s', s.ioPoll xs = some s' ∧ Refines s' v' ∧
      Relation.ReflTransGen (Edit fun _ => True) v v' := by
  induction xs generalizing s v with
  | nil =>
      obtain rfl := Option.some_inj.mp hv
      exact ⟨s, rfl, h, .refl⟩
  | cons x xs ih =>
      obtain ⟨v₁, hwake, hrest⟩ := Option.bind_eq_some_iff.mp hv
      obtain ⟨s₁, hs₁, h₁, he₁⟩ := h.wakeupTask_edits hinv (hxs x List.mem_cons_self) hwake
      obtain ⟨s₂, hs₂, h₂, he₂⟩ := ih h₁ (Inv.edits hinv he₁)
        (fun y hy => live_of_edits he₁ (hxs y (List.mem_cons_of_mem _ hy))) hrest
      refine ⟨s₂, ?_, h₂, he₁.trans he₂⟩
      rw [TaskSystem.ioPoll, List.foldlM_cons, hs₁]
      exact hs₂

theorem pollLoop {polls : List (List α)} (h : Refines s v) (hinv : ∃ ws, Inv v ws)
    (hlive : ∀ woken ∈ polls, ∀ x ∈ woken, v.Live x) (hv : v.pollLoop polls = some v') :
    ∃ s', s.pollLoop polls = some s' ∧ Refines s' v' := by
  induction polls generalizing s v with
  | nil => simp [TaskSystem.pollLoop] at hv
  | cons xs polls ih =>
      rw [TaskSystem.pollLoop] at hv ⊢
      obtain ⟨v₁, hpoll, hv⟩ := Option.bind_eq_some_iff.mp hv
      obtain ⟨s₁, hs₁, h₁, he⟩ := h.ioPoll hinv (hlive xs List.mem_cons_self) hpoll
      rw [hs₁, Option.bind_some, h₁.count]
      split_ifs at hv ⊢ with hzero
      · exact ih h₁ (Inv.edits hinv he) (fun ys hys y hy =>
          live_of_edits he (hlive ys (List.mem_cons_of_mem _ hys) y hy)) hv
      · obtain rfl := Option.some_inj.mp hv
        exact ⟨s₁, rfl, h₁⟩

theorem pollForTask {polls : List (List α)} (h : Refines s v) (hinv : ∃ ws, Inv v ws)
    (hlive : ∀ woken ∈ polls, ∀ x ∈ woken, v.Live x) (hv : v.pollForTask polls = some v') :
    ∃ s', s.pollForTask polls = some s' ∧ Refines s' v' := by
  rw [TaskSystem.pollForTask] at hv ⊢
  rw [h.count, h.total]
  split_ifs at hv ⊢ with hlt hne
  · have hhead : ∀ x ∈ polls.headD [], v.Live x := by
      cases polls with
      | nil => simp
      | cons xs polls => exact hlive xs List.mem_cons_self
    obtain ⟨s', hs', h', -⟩ := h.ioPoll hinv hhead hv
    exact ⟨s', hs', h'⟩
  · exact h.pollLoop hinv hlive hv
  · obtain rfl := Option.some_inj.mp hv
    exact ⟨s, rfl, h⟩

theorem dispatch {polls : List (List α)} (h : Refines s v) (hinv : ∃ ws, Inv v ws)
    (hlive : ∀ woken ∈ polls, ∀ x ∈ woken, v.Live x) (hv : v.dispatch polls = some v') :
    ∃ s', s.dispatch polls = some s' ∧ Refines s' v' := by
  have htotal : s.totalTaskCount = 0 ↔ v.totalTaskCount = 0 := by rw [h.total]
  rw [TaskSystem.dispatch] at hv ⊢
  rw [if_congr htotal rfl rfl]
  split_ifs at hv ⊢ with hzero
  · obtain rfl := Option.some_inj.mp hv
    exact ⟨_, rfl, h.total, h.count, rfl, h.tasks, h.queue, h.alive⟩
  · obtain ⟨v₁, hpoll, hv⟩ := Option.bind_eq_some_iff.mp hv
    obtain ⟨x, hx, hv⟩ := Option.bind_eq_some_iff.mp hv
    obtain rfl := Option.some_inj.mp hv
    obtain ⟨s₁, hs₁, h₁⟩ := h.pollForTask hinv hlive hpoll
    refine ⟨{ s₁ with currentTask := some x }, ?_, h₁.total, h₁.count, rfl, h₁.tasks, h₁.queue,
      h₁.alive⟩
    have hfirst : ReadyQueue.first s₁.runningTasks = some x :=
      (LawfulReadyQueue.lists_first h₁.queue).trans hx
    simp only [pickCurrentTask, hs₁, hfirst, Option.bind_eq_bind, Option.bind_some, Option.pure_def]

section leave
variable (h : Refines s v) (hinv : Inv v ws) (hx : v.currentTask = some x)
  (hmem : x ∈ v.runningTasks) (ht : v.tasks x = some t)
include h hinv hx hmem ht

theorem putBack_switch :
    ∃ s', s.putBack .switch = some s' ∧ Refines s' (v.requeue x t.switched) := by
  have hcur : s.currentTask = some x := h.current.trans hx
  have h₁ := h.put (x := x) (u := some t.switched) fun _ => rfl
  obtain ⟨s₂, hs₂, h₂⟩ := h₁.unlinkTask (x := x) hinv.count.ge hmem
  have ho : Ordered { v.put x (some t.switched) with runningTasks := v.runningTasks.erase x } :=
    ⟨hinv.sorted_erase _, (List.length_erase_le).trans hinv.count.ge⟩
  obtain ⟨s₃, hs₃, h₃⟩ := h₂.linkTask ho (put_tasks_self v x _) hinv.not_mem_erase
  refine ⟨s₃, ?_, h₃⟩
  have hcur' : ∀ u, (s.put x u).currentTask = some x := fun _ => hcur
  rw [TaskSystem.putBack, updateSchedKey, hcur, Option.bind_some, modify_eq (h.tasks_eq ht),
    Option.bind_some, reinsertCurrentTask, hcur', Option.bind_eq_bind, Option.bind_some,
    modify_eq (put_tasks_self ..), Option.bind_eq_bind, Option.bind_some, put_put]
  have hkey : t.schedKey + 1 * BitVec.ofNat 64 t.priority =
      t.schedKey + BitVec.ofNat 64 t.priority := by simp
  simp only [hkey]
  exact (congrArg (Option.bind · _) hs₂).trans hs₃

theorem putBack_waitio :
    ∃ s', s.putBack .waitio = some s' ∧ Refines s' (v.dismiss x (some t.parked)) := by
  have hcur : s.currentTask = some x := h.current.trans hx
  have hcur' : ∀ u, (s.put x u).currentTask = some x := fun _ => hcur
  -- The key and the state are written first, and the key once more when the task is not in the list.
  obtain ⟨u, hu, hpark⟩ : ∃ u : HevTask,
      u = { t with
        schedKey := t.schedKey + 1 * BitVec.ofNat 64 t.priority
        state := .waiting } ∧
      { u with schedKey := BitVec.ofNat 64 u.nextPriority } = t.parked := ⟨_, rfl, rfl⟩
  obtain ⟨s₂, hs₂, h₂⟩ := (h.put (x := x) (u := some u) fun _ => rfl).unlinkTask (x := x)
    hinv.count.ge hmem
  have h₃ : Refines { s₂ with runningTaskCount := s₂.runningTaskCount - 1 }
      (v.dismiss x (some u)) :=
    ⟨h₂.total, congrArg (· - 1) h₂.count, h₂.current, h₂.tasks, h₂.queue, h₂.alive⟩
  have h₄ := h₃.put (x := x) (u := some t.parked) fun _ => rfl
  rw [put_dismiss] at h₄
  refine ⟨_, ?_, h₄⟩
  have hlast : (v.dismiss x (some u)).tasks x = some u := put_tasks_self v x _
  have hmodify := modify_eq (h₃.tasks_eq hlast)
    fun t => { t with schedKey := BitVec.ofNat 64 t.nextPriority }
  rw [hpark] at hmodify
  rw [TaskSystem.putBack, updateSchedKey, hcur, Option.bind_some, modify_eq (h.tasks_eq ht),
    Option.bind_some, removeCurrentTask, hcur', Option.bind_eq_bind, Option.bind_some,
    modify_eq (put_tasks_self ..), Option.bind_eq_bind, Option.bind_some, put_put, ← hu, hs₂,
    Option.bind_some, if_neg (by decide), hmodify]

theorem putBack_remove :
    ∃ s', s.putBack .remove = some s' ∧
      Refines s' { v.dismiss x t.ended with totalTaskCount := v.totalTaskCount - 1 } := by
  have hcur : s.currentTask = some x := h.current.trans hx
  obtain ⟨u, hu⟩ : ∃ u : HevTask, u = { t with state := .stopped } := ⟨_, rfl⟩
  obtain ⟨s₂, hs₂, h₂⟩ := (h.put (x := x) (u := some u) fun _ => rfl).unlinkTask (x := x)
    hinv.count.ge hmem
  have h₃ : Refines { s₂ with runningTaskCount := s₂.runningTaskCount - 1,
                              totalTaskCount := s₂.totalTaskCount - 1 }
      { v.dismiss x (some u) with totalTaskCount := v.totalTaskCount - 1 } :=
    ⟨congrArg (· - 1) h₂.total, congrArg (· - 1) h₂.count, h₂.current, h₂.tasks, h₂.queue, h₂.alive⟩
  have hended : TaskSystem.put { v.dismiss x (some u) with totalTaskCount := v.totalTaskCount - 1 } x
      t.ended = { v.dismiss x t.ended with totalTaskCount := v.totalTaskCount - 1 } := by
    simp only [TaskSystem.put, dismiss, Function.update_idem]
  have h₄ := h₃.put (x := x) (u := t.ended) fun hin => absurd hin hinv.not_mem_erase
  rw [hended] at h₄
  refine ⟨_, ?_, h₄⟩
  have hlast : (v.dismiss x (some u)).tasks x = some u := put_tasks_self v x _
  have hunref := unref_eq (h₃.tasks_eq hlast)
  rw [TaskSystem.putBack, removeCurrentTask, hcur, Option.bind_eq_bind, Option.bind_some,
    modify_eq (h.tasks_eq ht), Option.bind_eq_bind, Option.bind_some, ← hu, hs₂,
    Option.bind_some, if_pos rfl]
  subst hu
  exact hunref

theorem putBack (how : Leave) :
    ∃ s', s.putBack how = some s' ∧ Refines s' (v.released x t how) := by
  cases how with
  | switch => exact h.putBack_switch hinv hx hmem ht
  | waitio => exact h.putBack_waitio hinv hx hmem ht
  | remove => exact h.putBack_remove hinv hx hmem ht

end leave

theorem unref (h : Refines s v) (hinv : Inv v ws) (ht : v.tasks x = some t)
    (hcount : (if t.state = .stopped then 1 else 2) ≤ t.refCount) :
    ∃ s', s.unref x = some s' ∧ Refines s' (v.put x
      (if t.refCount - 1 ≠ 0 then some { t with refCount := t.refCount - 1 } else none)) := by
  refine ⟨_, unref_eq (h.tasks_eq ht), h.put ?_⟩
  intro hmem
  have hrun : t.state = .running :=
    Option.some_inj.mp ((state_eq ht).symm.trans ((hinv.mem_running x).mp hmem))
  rw [hrun, if_neg (by decide)] at hcount
  rw [if_pos (by omega)]
  rfl

theorem newTaskKey (h : Refines s v) : s.newTaskKey = v.newTaskKey := by
  rw [TaskSystem.newTaskKey, TaskSystem.newTaskKey, h.current, h.getMinSchedKey]

theorem runNewTask {key : BitVec 64} (h : Refines s v) (hinv : Inv v ws) (ht : v.tasks x = some t)
    (hx : x ∉ v.runningTasks) (hkey : v.newTaskKey = some key) :
    ∃ s', s.runNewTask x = some s' ∧
      Refines s' { v.enlist x (t.woken key) with totalTaskCount := v.totalTaskCount + 1 } := by
  obtain ⟨s', hs', h'⟩ := h.enlist hinv ht hx key
  refine ⟨{ s' with totalTaskCount := s'.totalTaskCount + 1 }, ?_, congrArg (· + 1) h'.total,
    h'.count, h'.current, h'.tasks, h'.queue, h'.alive⟩
  rw [modify_eq (h.tasks_eq ht), Option.bind_some] at hs'
  simp only [TaskSystem.runNewTask, h.newTaskKey, hkey, modify_eq (h.tasks_eq ht), hs',
    Option.bind_eq_bind, Option.bind_some, Option.pure_def]

theorem run (h : Refines s v) (hinv : Inv v ws) (ht : v.tasks x = some t)
    (hv : v.run x = some v') : ∃ s', s.run x = some s' ∧ Refines s' v' := by
  by_cases hs : t.state = .stopped
  · have hnot := hinv.not_mem_running ((state_eq ht).trans (by rw [hs])) (by decide)
    obtain rfl := Option.some_inj.mp (hv.symm.trans (hinv.run_stopped ht hs))
    obtain ⟨u, hu⟩ : ∃ u : HevTask, u = { t with
      priority := t.nextPriority
      schedKey := BitVec.ofNat 64 t.nextPriority } := ⟨_, rfl⟩
    have hinv' : Inv (v.put x (some u)) ws := by
      refine hinv.put_dead (by simpa [ht] using hs) ?_
      rintro _ ⟨⟩
      rw [hu]
      exact ⟨hs, hinv.referenced x t ht⟩
    have hkey : (v.put x (some u)).newTaskKey = some (if v.currentTask.isSome then v.minKey else 0) := by
      rw [TaskSystem.newTaskKey, getMinSchedKey_put fun hhead => hnot (List.mem_of_head? hhead)]
      exact hinv.newTaskKey
    obtain ⟨s', hs', h'⟩ := (h.put (x := x) (u := some u) fun _ => rfl).runNewTask hinv'
      (put_tasks_self ..) hnot hkey
    rw [enlist_put] at h'
    subst hu
    refine ⟨s', ?_, h'⟩
    rw [TaskSystem.run, h.tasks_eq ht, Option.bind_eq_bind, Option.bind_some,
      if_neg (not_not.mpr hs), modify_eq (h.tasks_eq ht)]
    exact hs'
  · obtain rfl := Option.some_inj.mp (hv.symm.trans (run_live ht hs))
    refine ⟨s, ?_, h⟩
    simp only [TaskSystem.run, h.tasks_eq ht, Option.bind_eq_bind, Option.bind_some, if_pos hs]

theorem possible_iff (h : Refines s v) (e : SchedEvent α) : e.Possible s ↔ e.Possible v := by
  have hanswers : ∀ ended idle polls, s.Answers ended idle polls ↔ v.Answers ended idle polls := by
    intro ended idle polls
    simp only [Answers, Live, h.tasks]
  cases e with
  | leave how polls =>
      cases how <;> simp only [SchedEvent.Possible, hanswers, h.current, h.count, h.total]
  | start polls => simp only [SchedEvent.Possible, hanswers, h.current, h.count, h.total]
  | _ => simp only [SchedEvent.Possible, Live, h.tasks]

/-- At an event that can happen both systems end without `abort`, in states that agree. -/
theorem exec {P : Fin 16 → Prop} {e : SchedEvent α} (h : Refines s v) (hv : Sound v)
    (hp : e.Possible v) (hok : e.Sets P) :
    ∃ s' v', s.exec e = some s' ∧ v.exec e = some v' ∧ Refines s' v' ∧ Effect P v e v' := by
  obtain ⟨v', hv', heff⟩ := hv.exec hp hok
  obtain ⟨ws, hinv⟩ := hv.inv
  suffices hsim : ∃ s', s.exec e = some s' ∧ Refines s' v' by
    obtain ⟨s', hs', h'⟩ := hsim
    exact ⟨s', v', hs', hv', h', heff⟩
  cases e with
  | new x =>
      obtain rfl := Option.some_inj.mp hv'
      exact ⟨_, rfl, h.put fun _ => rfl⟩
  | ref x =>
      obtain ⟨t, ht⟩ := Option.ne_none_iff_exists'.mp hp
      obtain rfl := Option.some_inj.mp (hv'.symm.trans (modify_eq ht _))
      exact ⟨_, modify_eq (h.tasks_eq ht) _, h.put fun _ => rfl⟩
  | unref x =>
      obtain ⟨t, ht, hcount⟩ := hp
      obtain rfl := Option.some_inj.mp (hv'.symm.trans (unref_eq ht))
      exact h.unref hinv ht hcount
  | setPriority x p =>
      obtain ⟨t, ht⟩ := Option.ne_none_iff_exists'.mp hp
      obtain rfl := Option.some_inj.mp (hv'.symm.trans (modify_eq ht _))
      exact ⟨_, modify_eq (h.tasks_eq ht) _, h.put fun _ => rfl⟩
  | run x =>
      obtain ⟨t, ht⟩ := Option.ne_none_iff_exists'.mp hp
      exact h.run hinv ht hv'
  | wakeup x => exact h.wakeupTask hinv hp hv'
  | start polls => exact h.dispatch ⟨ws, hinv⟩ (fun woken hw y hy => (hp.2.1 woken hw y hy).1) hv'
  | leave how polls =>
      obtain ⟨x, t, v₁, hx, hmem, ht, hlive, hdisp, -⟩ := hv.leave (P := P) hp
      obtain ⟨s₁, hs₁, h₁⟩ := h.putBack hinv hx hmem ht how
      rw [TaskSystem.exec, schedule, putBack_eq hx hmem ht, Option.bind_some] at hv'
      obtain ⟨s₂, hs₂, h₂⟩ := h₁.dispatch (hinv.released ht hmem how) hlive hv'
      refine ⟨s₂, ?_, h₂⟩
      rw [TaskSystem.exec, schedule, hs₁, Option.bind_some, hs₂]

end Refines

/-! ### Runs -/

/-- A run of the program is a run with lists. -/
theorem Refines.runs {s' : TaskSystem Q α} {es : List (SchedEvent α)} (h : Refines s v)
    (hv : Sound v) (hes : s.runs es = some s') :
    ∃ v', v.runs es = some v' ∧ Refines s' v' ∧ Sound v' := by
  refine GuardedRun.runs_simulation (fun s v => Refines s v ∧ Sound v) ?_ ⟨h, hv⟩ hes
  rintro s v e s₁ ⟨h, hv⟩ hp hs₁
  rw [h.possible_iff] at hp
  obtain ⟨s₁', v₁, hs₁', hv₁, h₁, heff⟩ := h.exec (P := fun _ => True) hv hp (by cases e <;> trivial)
  obtain rfl := Option.some_inj.mp (hs₁.symm.trans hs₁')
  exact ⟨v₁, hp, hv₁, h₁, hv.effect heff⟩

/-- The program can do what the system with lists can do. -/
theorem Refines.runs_of_list {es : List (SchedEvent α)} (h : Refines s v) (hv : Sound v)
    (hes : v.runs es = some v') : ∃ s', s.runs es = some s' ∧ Refines s' v' ∧ Sound v' := by
  refine GuardedRun.runs_simulation (fun v s => Refines s v ∧ Sound v) ?_ ⟨h, hv⟩ hes
  rintro v s e v₁ ⟨h, hv⟩ hp hv₁
  obtain ⟨s₁, v₁', hs₁, hv₁', h₁, heff⟩ := h.exec (P := fun _ => True) hv hp (by cases e <;> trivial)
  obtain rfl := Option.some_inj.mp (hv₁.symm.trans hv₁')
  exact ⟨s₁, (h.possible_iff e).mpr hp, hs₁, h₁, hv.effect heff⟩

/-! ### States of a run -/

/-- The state of a task system in which nothing has gone wrong. -/
def Legal (s : TaskSystem Q α) : Prop := ∃ v : TaskSystem (List α) α, Refines s v ∧ Sound v

theorem legal_init : Legal (init : TaskSystem Q α) := ⟨_, Refines.init, sound_init⟩

theorem Legal.runs {s' : TaskSystem Q α} {es : List (SchedEvent α)} (h : Legal s)
    (hes : s.runs es = some s') : Legal s' := by
  obtain ⟨v, hr, hv⟩ := h
  obtain ⟨v', -, hr', hv'⟩ := hr.runs hv hes
  exact ⟨v', hr', hv'⟩

theorem Legal.current {c : α} (h : Legal s) (hc : s.currentTask = some c) :
    s.state c = some .running := by
  obtain ⟨v, hr, hv⟩ := h
  obtain ⟨ws, hinv⟩ := hv.inv
  rw [state, hr.tasks]
  exact (hinv.mem_running c).mp (hv.current c (hr.current.symm.trans hc))

/-- What an event does to the tasks, whatever the queue is. -/
theorem Legal.exec {e : SchedEvent α} (h : Legal s) (hp : e.Possible s) :
    ∃ s', s.exec e = some s' ∧ Legal s' ∧
      (∀ y, s.Live y → (∀ polls, e = .leave .remove polls → s.currentTask ≠ some y) → s'.Live y) ∧
      (∀ y, s.state y = some .running →
        (∀ how polls, e = .leave how polls → s.currentTask ≠ some y) →
          s'.state y = some .running) ∧
      (∀ x, e = .wakeup x → s'.state x = some .running) ∧
      (s.currentTask ≠ none → (∃ y, s'.Live y) → s'.currentTask ≠ none) := by
  obtain ⟨v, hr, hv⟩ := h
  have hp' := (hr.possible_iff e).mp hp
  obtain ⟨s', v', hs', hv', hr', heff⟩ := hr.exec (P := fun _ => True) hv hp'
    (by cases e <;> trivial)
  have hlive : ∀ {s : TaskSystem Q α} {v}, Refines s v → ∀ y, s.Live y ↔ v.Live y := by
    intro s v hr y
    rw [Live, Live, hr.tasks]
  have hstate : ∀ {s : TaskSystem Q α} {v}, Refines s v → ∀ y, s.state y = v.state y := by
    intro s v hr y
    rw [state, state, hr.tasks]
  refine ⟨s', hs', ⟨v', hr', hv.effect heff⟩, ?_, ?_, ?_, ?_⟩
  · intro y hy hend
    rw [hr.current] at hend
    exact (hlive hr' y).mpr (hv.live heff ((hlive hr y).mp hy) hend)
  · intro y hy hleave
    rw [hr.current] at hleave
    exact (hstate hr' y).trans (heff.running ((hstate hr y).symm.trans hy) hleave)
  · rintro x rfl
    obtain ⟨ws, hinv⟩ := hv.inv
    obtain ⟨v₁, hv₁, hw⟩ := hinv.wakeupTask (P := fun _ => True) hp'
    obtain rfl := Option.some_inj.mp (hv'.symm.trans hv₁)
    exact (hstate hr' x).trans (hw.state x List.mem_cons_self)
  · rintro hcur ⟨y, hy⟩
    rw [hr.current] at hcur
    rw [hr'.current]
    exact hv.currentTask_ne_none heff ((hlive hr' y).mp hy) hcur

end TaskSystem

end HevTunnel
