import HevTunnel.TaskReady

/-! # What holds whenever a task runs

`Inv` says that the list, the counters and the tasks fit together: the list has the tasks in the state
`HEV_TASK_RUNNING`, in the order of their keys, and the two counters are right.  Every change keeps it
(`Inv.edits`, `Inv.released`).  `Sound` adds that the current task is in the list; an event that can
happen in a sound state ends without `abort` in a sound state (`Sound.exec`). -/

namespace HevTunnel

open FairQueue

namespace TaskSystem

variable {α : Type} [DecidableEq α] {v : TaskSystem (List α) α} {x : α} {t : HevTask}

/-! ### The invariant -/

/-- The list, the counters and the tasks fit together; `ws` are the tasks that wait. -/
structure Inv (v : TaskSystem (List α) α) (ws : List α) : Prop where
  sorted : Sorted (keyOf v.tasks) v.runningTasks
  nodup : v.runningTasks.Nodup
  mem_running : ∀ x, x ∈ v.runningTasks ↔ v.state x = some .running
  waiting_nodup : ws.Nodup
  mem_waiting : ∀ x, x ∈ ws ↔ v.state x = some .waiting
  count : v.runningTaskCount = v.runningTasks.length
  total : v.totalTaskCount = v.runningTasks.length + ws.length
  referenced : ∀ x, ∀ t ∈ v.tasks x, 0 < t.refCount

theorem inv_init : Inv (init : TaskSystem (List α) α) [] where
  sorted := List.Pairwise.nil
  nodup := List.nodup_nil
  mem_running x := by simp [init, ReadyQueue.empty, state]
  waiting_nodup := List.nodup_nil
  mem_waiting x := by simp [init, state]
  count := rfl
  total := rfl
  referenced x t ht := by simp [init] at ht

namespace Inv

variable {ws : List α}

theorem sorted_update {l : List α} (hl : Sorted (keyOf v.tasks) l) (hx : x ∉ l)
    (u : Option HevTask) : Sorted (keyOf (Function.update v.tasks x u)) l :=
  hl.congr fun _ hy => keyOf_update_of_ne (ne_of_mem_of_not_mem hy hx) ..

theorem referenced_put (h : Inv v ws) {u : Option HevTask} (hu : ∀ t ∈ u, 0 < t.refCount) :
    ∀ y, ∀ t ∈ (v.put x u).tasks y, 0 < t.refCount := by
  intro y t ht
  by_cases hy : y = x
  · rw [hy, put_tasks_self] at ht
    exact hu t ht
  · rw [put_tasks, Function.update_of_ne hy] at ht
    exact h.referenced y t ht

/-- A write that keeps the state and the key. -/
theorem put_same (h : Inv v ws) (hx : v.tasks x = some t) {u : HevTask} (hs : u.state = t.state)
    (hk : u.schedKey = t.schedKey) (hr : 0 < u.refCount) : Inv (v.put x (some u)) ws := by
  have hstate : ∀ y, (v.put x (some u)).state y = v.state y := by
    intro y
    rw [state_put]
    split_ifs with hy
    · rw [hy, state_eq hx, Option.map_some, hs]
    · rfl
  refine ⟨h.sorted.congr fun y _ => keyOf_update_same hx hk y, h.nodup, ?_, h.waiting_nodup, ?_,
    h.count, h.total, h.referenced_put (by simpa using hr)⟩
  · intro y
    rw [hstate]
    exact h.mem_running y
  · intro y
    rw [hstate]
    exact h.mem_waiting y

/-- A write to a task that is not live and stays so. -/
theorem put_dead (h : Inv v ws) (hx : ∀ t ∈ v.tasks x, t.state = .stopped) {u : Option HevTask}
    (hu : ∀ t ∈ u, t.state = .stopped ∧ 0 < t.refCount) : Inv (v.put x u) ws := by
  have hold : ∀ st, st ≠ TaskState.stopped → v.state x ≠ some st := by
    intro st hne hst
    obtain ⟨t, ht, rfl⟩ := Option.map_eq_some_iff.mp hst
    exact hne (hx t ht)
  have hstate : ∀ st, st ≠ TaskState.stopped →
      ∀ y, (v.put x u).state y = some st ↔ v.state y = some st := by
    intro st hne y
    rw [state_put]
    split_ifs with hy
    · rw [hy]
      refine iff_of_false ?_ (hold st hne)
      intro hst
      obtain ⟨t, ht, rfl⟩ := Option.map_eq_some_iff.mp hst
      exact hne (hu t ht).1
    · rfl
  have hnot : x ∉ v.runningTasks := fun hmem =>
    hold .running (by decide) ((h.mem_running x).mp hmem)
  refine ⟨sorted_update h.sorted hnot u, h.nodup, ?_, h.waiting_nodup, ?_, h.count, h.total,
    h.referenced_put fun t ht => (hu t ht).2⟩
  · intro y
    rw [hstate .running (by decide)]
    exact h.mem_running y
  · intro y
    rw [hstate .waiting (by decide)]
    exact h.mem_waiting y

/-- A task that is not in the list enters it. -/
theorem sorted_enlist (h : Inv v ws) (hx : x ∉ v.runningTasks) (t : HevTask) :
    Sorted (keyOf (v.enlist x t).tasks) (v.enlist x t).runningTasks :=
  (sorted_update h.sorted hx _).enqueue x

theorem mem_enlist (h : Inv v ws) (ht : t.state = .running) (y : α) :
    y ∈ (v.enlist x t).runningTasks ↔ (v.enlist x t).state y = some .running := by
  have hstate : (v.enlist x t).state y = (v.put x (some t)).state y := rfl
  rw [hstate, state_put, enlist, mem_enqueue, h.mem_running]
  split_ifs with hy
  · simp [hy, ht]
  · simp [hy]

omit [DecidableEq α] in
theorem not_mem_running (h : Inv v ws) {st : TaskState} (hx : v.state x = some st)
    (hne : st ≠ .running) : x ∉ v.runningTasks := by
  rw [h.mem_running, hx]
  simpa using hne

/-- A task that waits is woken up. -/
theorem wake (h : Inv v ws) (hx : v.state x = some .waiting) (ht : t.state = .running)
    (hr : 0 < t.refCount) : Inv (v.enlist x t) (ws.erase x) := by
  have hnot := h.not_mem_running hx (by decide)
  have hmem : x ∈ ws := (h.mem_waiting x).mpr hx
  refine ⟨h.sorted_enlist hnot t, nodup_enqueue hnot h.nodup, h.mem_enlist ht,
    h.waiting_nodup.erase x, ?_, ?_, ?_, h.referenced_put (by simpa using hr)⟩
  · intro y
    have hstate : (v.enlist x t).state y = (v.put x (some t)).state y := rfl
    rw [hstate, state_put, h.waiting_nodup.mem_erase_iff, h.mem_waiting]
    split_ifs with hy
    · simp [hy, ht]
    · simp [hy]
  · simp [enlist, h.count]
  · have hpos := List.length_pos_of_mem hmem
    simp only [enlist, length_enqueue, List.length_erase_of_mem hmem, h.total]
    omega

/-- A task that is not live is started. -/
theorem start (h : Inv v ws) (hx : v.state x = some .stopped) (ht : t.state = .running)
    (hr : 0 < t.refCount) :
    Inv { v.enlist x t with totalTaskCount := v.totalTaskCount + 1 } ws := by
  have hnot := h.not_mem_running hx (by decide)
  refine ⟨h.sorted_enlist hnot t, nodup_enqueue hnot h.nodup, h.mem_enlist ht,
    h.waiting_nodup, ?_, ?_, ?_, h.referenced_put (by simpa using hr)⟩
  · intro y
    change y ∈ ws ↔ (v.put x (some t)).state y = some .waiting
    rw [state_put, h.mem_waiting]
    split_ifs with hy
    · simp [hy, ht, hx]
    · rfl
  · simp [enlist, h.count]
  · simp only [enlist, length_enqueue, h.total]
    omega

theorem not_mem_erase (h : Inv v ws) : x ∉ v.runningTasks.erase x := h.nodup.not_mem_erase

theorem sorted_erase (h : Inv v ws) (u : Option HevTask) :
    Sorted (keyOf (v.put x u).tasks) (v.runningTasks.erase x) :=
  sorted_update (h.sorted.sublist List.erase_sublist) h.not_mem_erase u

theorem mem_erase (h : Inv v ws) {u : Option HevTask} (hu : u.map HevTask.state ≠ some .running)
    (y : α) : y ∈ v.runningTasks.erase x ↔ (v.put x u).state y = some .running := by
  rw [state_put, h.nodup.mem_erase_iff, h.mem_running]
  split_ifs with hy
  · simp [hy, hu]
  · simp [hy]

/-- The current task goes back into the list. -/
theorem switch (h : Inv v ws) (hx : v.tasks x = some t) (hmem : x ∈ v.runningTasks) :
    Inv (v.requeue x t.switched) ws := by
  have hrun := (h.mem_running x).mp hmem
  have hstate : ∀ y, (v.requeue x t.switched).state y = v.state y := by
    intro y
    change (v.put x _).state y = v.state y
    rw [state_put]
    split_ifs with hy
    · rw [hy, state_eq hx]
      rfl
    · rfl
  refine ⟨(h.sorted_erase _).enqueue x, nodup_enqueue h.not_mem_erase (h.nodup.erase x), ?_,
    h.waiting_nodup, ?_, ?_, ?_, h.referenced_put ?_⟩
  · intro y
    rw [hstate, ← h.mem_running, requeue, mem_enqueue, h.nodup.mem_erase_iff]
    constructor
    · rintro (rfl | ⟨-, hy⟩)
      · exact hmem
      · exact hy
    · exact fun hy => (eq_or_ne y x).imp_right fun hne => ⟨hne, hy⟩
  · intro y
    rw [hstate]
    exact h.mem_waiting y
  · rw [requeue, length_enqueue, List.length_erase_of_mem hmem,
      Nat.sub_add_cancel (List.length_pos_of_mem hmem)]
    exact h.count
  · rw [requeue, length_enqueue, List.length_erase_of_mem hmem,
      Nat.sub_add_cancel (List.length_pos_of_mem hmem)]
    exact h.total
  · rintro u ⟨⟩
    exact h.referenced x t hx

/-- The current task waits. -/
theorem park (h : Inv v ws) (hx : v.tasks x = some t) (hmem : x ∈ v.runningTasks) :
    Inv (v.dismiss x (some t.parked)) (x :: ws) := by
  have hrun := (h.mem_running x).mp hmem
  have hpos := List.length_pos_of_mem hmem
  refine ⟨h.sorted_erase _, h.nodup.erase x, h.mem_erase (by simp [HevTask.parked]),
    List.nodup_cons.mpr ⟨?_, h.waiting_nodup⟩, ?_, ?_, ?_, h.referenced_put ?_⟩
  · rw [h.mem_waiting, hrun]
    decide
  · intro y
    change _ ↔ (v.put x _).state y = some .waiting
    rw [state_put, List.mem_cons, h.mem_waiting]
    split_ifs with hy
    · simp [hy, HevTask.parked]
    · simp [hy]
  · simp only [dismiss, h.count, List.length_erase_of_mem hmem]
  · simp only [dismiss, List.length_erase_of_mem hmem, List.length_cons, h.total]
    omega
  · rintro u ⟨⟩
    exact h.referenced x t hx

omit [DecidableEq α] in
theorem ended_spec (h : Inv v ws) (hx : v.tasks x = some t) :
    ∀ u ∈ t.ended, u.state = .stopped ∧ 0 < u.refCount := by
  have hpos := h.referenced x t hx
  intro u hu
  rw [HevTask.ended] at hu
  split_ifs at hu with hcount
  · rw [← Option.mem_some.mp hu]
    exact ⟨rfl, by simp only; omega⟩
  · simp at hu

/-- The current task ends. -/
theorem finish (h : Inv v ws) (hx : v.tasks x = some t) (hmem : x ∈ v.runningTasks) :
    Inv { v.dismiss x t.ended with totalTaskCount := v.totalTaskCount - 1 } ws := by
  have hrun := (h.mem_running x).mp hmem
  have hpos := List.length_pos_of_mem hmem
  have hended : ∀ st, st ≠ TaskState.stopped → t.ended.map HevTask.state ≠ some st := by
    intro st hne hst
    obtain ⟨u, hu, rfl⟩ := Option.map_eq_some_iff.mp hst
    exact hne (h.ended_spec hx u hu).1
  refine ⟨h.sorted_erase _, h.nodup.erase x, h.mem_erase (hended _ (by decide)), h.waiting_nodup,
    ?_, ?_, ?_, h.referenced_put fun u hu => (h.ended_spec hx u hu).2⟩
  · intro y
    change _ ↔ (v.put x _).state y = some .waiting
    rw [state_put, h.mem_waiting]
    split_ifs with hy
    · rw [hy, hrun]
      exact iff_of_false (by decide) (hended _ (by decide))
    · rfl
  · simp only [dismiss, h.count, List.length_erase_of_mem hmem]
  · simp only [dismiss, List.length_erase_of_mem hmem, h.total]
    omega

theorem edit {P : Fin 16 → Prop} {v' : TaskSystem (List α) α} (h : Inv v ws)
    (he : Edit P v v') : ∃ ws', Inv v' ws' := by
  cases he with
  | new hx => exact ⟨ws, h.put_dead (by simp [hx]) (by simp)⟩
  | count hx hn => exact ⟨ws, h.put_same hx rfl rfl hn⟩
  | priority hx _ =>
      have hr := h.referenced _ _ hx
      exact ⟨ws, h.put_same hx rfl rfl hr⟩
  | free hx hs => exact ⟨ws, h.put_dead (by simpa [hx] using hs) (by simp)⟩
  | wake hx hs =>
      have hr := h.referenced _ _ hx
      exact ⟨_, h.wake ((state_eq hx).trans (by rw [hs])) rfl hr⟩
  | start hx hs =>
      have hr := h.referenced _ _ hx
      exact ⟨_, h.start ((state_eq hx).trans (by rw [hs])) rfl hr⟩

theorem edits {P : Fin 16 → Prop} {v' : TaskSystem (List α) α} (h : ∃ ws, Inv v ws)
    (he : Relation.ReflTransGen (Edit P) v v') : ∃ ws, Inv v' ws := by
  induction he with
  | refl => exact h
  | tail _ he ih =>
      obtain ⟨ws, h⟩ := ih
      exact h.edit he

theorem released (h : Inv v ws) (hx : v.tasks x = some t) (hmem : x ∈ v.runningTasks)
    (how : Leave) : ∃ ws', Inv (v.released x t how) ws' := by
  cases how with
  | switch => exact ⟨_, h.switch hx hmem⟩
  | waitio => exact ⟨_, h.park hx hmem⟩
  | remove => exact ⟨_, h.finish hx hmem⟩

omit [DecidableEq α] in
theorem picked (h : Inv v ws) : Inv v.picked ws :=
  ⟨h.sorted, h.nodup, h.mem_running, h.waiting_nodup, h.mem_waiting, h.count, h.total, h.referenced⟩

end Inv

/-! ### States of the tasks under a change -/

theorem Edit.state_of_live {P : Fin 16 → Prop} {v' : TaskSystem (List α) α} (he : Edit P v v')
    {y : α} {st : TaskState} (hy : v.state y = some st) (hst : st ≠ .stopped) :
    v'.state y = some st ∨ st = .waiting ∧ v'.state y = some .running := by
  -- A write to another task changes nothing, and a write to `y` starts from the state `st`.
  have key : ∀ {x u}, (y = x → u.map HevTask.state = some st ∨
      st = .waiting ∧ u.map HevTask.state = some .running) →
      (v.put x u).state y = some st ∨ st = .waiting ∧ (v.put x u).state y = some .running := by
    intro x u h
    rw [state_put]
    split_ifs with hyx
    · exact h hyx
    · exact .inl hy
  have hst' : ∀ {x t}, v.tasks x = some t → y = x → st = t.state := by
    rintro x t hx rfl
    exact Option.some_inj.mp (hy.symm.trans (state_eq hx))
  cases he with
  | new hx =>
      refine key ?_
      rintro rfl
      rw [state, hx] at hy
      simp at hy
  | count hx _ => exact key fun h => .inl (by rw [hst' hx h]; rfl)
  | priority hx _ => exact key fun h => .inl (by rw [hst' hx h]; rfl)
  | free hx hs => exact key fun h => absurd ((hst' hx h).trans hs) hst
  | wake hx hs => exact key fun h => .inr ⟨(hst' hx h).trans hs, rfl⟩
  | start hx hs => exact key fun h => absurd ((hst' hx h).trans hs) hst

theorem Edit.currentTask {P : Fin 16 → Prop} {v' : TaskSystem (List α) α} (he : Edit P v v') :
    v'.currentTask = v.currentTask := by
  cases he <;> rfl

section edits
variable {P : Fin 16 → Prop} {v' : TaskSystem (List α) α}
  (he : Relation.ReflTransGen (Edit P) v v')
include he

/-- A live task stays live, and one in the list stays there. -/
theorem edits_state {y : α} {st : TaskState} (hy : v.state y = some st) (hst : st ≠ .stopped) :
    v'.state y = some st ∨ st = .waiting ∧ v'.state y = some .running := by
  induction he with
  | refl => exact .inl hy
  | tail _ he ih =>
      rcases ih with h | ⟨rfl, h⟩
      · exact he.state_of_live h hst
      · exact .inr ⟨rfl, (he.state_of_live h (by decide)).resolve_right (by simp)⟩

theorem edits_running {y : α} (hy : v.state y = some .running) : v'.state y = some .running :=
  (edits_state he hy (by decide)).resolve_right (by simp)

theorem edits_currentTask : v'.currentTask = v.currentTask := by
  induction he with
  | refl => rfl
  | tail _ he ih => exact he.currentTask.trans ih

end edits

/-! ### The functions in terms of changes -/

omit [DecidableEq α] in
theorem live_iff : v.Live x ↔ v.state x = some .running ∨ v.state x = some .waiting := by
  rw [Live, state]
  cases v.tasks x with
  | none => simp
  | some t => cases h : t.state <;> simp [h]

theorem live_of_edits {P : Fin 16 → Prop} {v' : TaskSystem (List α) α}
    (he : Relation.ReflTransGen (Edit P) v v') (hx : v.Live x) : v'.Live x := by
  rw [live_iff] at hx ⊢
  rcases hx with hx | hx
  · exact .inl (edits_running he hx)
  · exact (edits_state he hx (by decide)).symm.imp_left And.right

/-- Some tasks have been woken up. -/
structure Woken (P : Fin 16 → Prop) (v : TaskSystem (List α) α) (xs : List α)
    (v' : TaskSystem (List α) α) : Prop where
  edits : Relation.ReflTransGen (Edit P) v v'
  total : v'.totalTaskCount = v.totalTaskCount
  state : ∀ x ∈ xs, v'.state x = some .running

theorem Woken.nil (P : Fin 16 → Prop) (v : TaskSystem (List α) α) : Woken P v [] v :=
  ⟨.refl, rfl, by simp⟩

theorem Woken.cons {P : Fin 16 → Prop} {v₁ v₂ : TaskSystem (List α) α} {xs ys : List α}
    (h₁ : Woken P v xs v₁) (h₂ : Woken P v₁ ys v₂) : Woken P v (xs ++ ys) v₂ := by
  refine ⟨h₁.edits.trans h₂.edits, h₂.total.trans h₁.total, ?_⟩
  intro x hx
  rcases List.mem_append.mp hx with hx | hx
  · exact edits_running h₂.edits (h₁.state x hx)
  · exact h₂.state x hx

namespace Inv

variable {ws : List α} {P : Fin 16 → Prop}

theorem getMinSchedKey (h : Inv v ws) : v.getMinSchedKey = some v.minKey := by
  rw [minKey, TaskSystem.getMinSchedKey]
  cases hy : ReadyQueue.first v.runningTasks with
  | none => rfl
  | some y =>
      have hstate := (h.mem_running y).mp (List.mem_of_head? hy)
      obtain ⟨t, ht, -⟩ := Option.map_eq_some_iff.mp hstate
      simp [ht]

omit [DecidableEq α] in
theorem count_ne_zero (h : Inv v ws) (hx : v.state x = some .running) : v.runningTaskCount ≠ 0 := by
  rw [h.count]
  exact (List.length_pos_of_mem ((h.mem_running x).mpr hx)).ne'

omit [DecidableEq α] in
theorem exists_running (h : Inv v ws) (hc : v.runningTaskCount ≠ 0) :
    ∃ x, v.state x = some .running := by
  rw [h.count] at hc
  obtain ⟨x, hx⟩ := List.exists_mem_of_length_pos (Nat.pos_of_ne_zero hc)
  exact ⟨x, (h.mem_running x).mp hx⟩

theorem wakeupTask (h : Inv v ws) (hx : v.Live x) :
    ∃ v', v.wakeupTask x = some v' ∧ Woken P v [x] v' := by
  obtain ⟨t, ht, hs⟩ := hx
  cases hst : t.state with
  | stopped => exact absurd hst hs
  | running =>
      refine ⟨v, wakeupTask_running ht hst, .refl, rfl, ?_⟩
      simp [state_eq ht, hst]
  | waiting =>
      refine ⟨_, wakeupTask_waiting ht hst h.getMinSchedKey, .single (.wake ht hst), rfl, ?_⟩
      intro y hy
      rw [List.mem_singleton.mp hy]
      exact (state_put v x x (some (t.woken v.minKey))).trans (if_pos rfl)

theorem ioPoll {xs : List α} (h : ∃ ws, Inv v ws) (hxs : ∀ x ∈ xs, v.Live x) :
    ∃ v', v.ioPoll xs = some v' ∧ Woken P v xs v' := by
  induction xs generalizing v with
  | nil => exact ⟨v, rfl, .nil P v⟩
  | cons x xs ih =>
      obtain ⟨ws, hv⟩ := h
      obtain ⟨v₁, hwake, hw₁⟩ := hv.wakeupTask (P := P) (hxs x List.mem_cons_self)
      obtain ⟨v₂, hrest, hw₂⟩ := ih (edits ⟨ws, hv⟩ hw₁.edits) fun y hy =>
        live_of_edits hw₁.edits (hxs y (List.mem_cons_of_mem _ hy))
      refine ⟨v₂, ?_, hw₁.cons hw₂⟩
      rw [TaskSystem.ioPoll, List.foldlM_cons, hwake]
      exact hrest

theorem pollLoop {polls : List (List α)} (h : ∃ ws, Inv v ws)
    (hlive : ∀ woken ∈ polls, ∀ x ∈ woken, v.Live x) (hwoken : ∃ woken ∈ polls, woken ≠ []) :
    ∃ v' xs, v.pollLoop polls = some v' ∧ Woken P v xs v' ∧ v'.runningTaskCount ≠ 0 := by
  induction polls generalizing v with
  | nil => simp at hwoken
  | cons xs polls ih =>
      obtain ⟨v₁, hpoll, hw₁⟩ := ioPoll (P := P) h (hlive xs List.mem_cons_self)
      have h₁ := edits h hw₁.edits
      rw [TaskSystem.pollLoop, hpoll, Option.bind_some]
      split_ifs with hzero
      · -- Nobody can run yet, so this poll has woken nobody.
        have hnil : xs = [] := by
          refine List.eq_nil_iff_forall_not_mem.mpr fun x hx => ?_
          obtain ⟨ws₁, h₁⟩ := h₁
          exact h₁.count_ne_zero (hw₁.state x hx) hzero
        have hrest : ∃ woken ∈ polls, woken ≠ [] := by simpa [hnil] using hwoken
        obtain ⟨v₂, ys, hloop, hw₂, hne⟩ := ih h₁
          (fun ys hys y hy => live_of_edits hw₁.edits (hlive ys (List.mem_cons_of_mem _ hys) y hy))
          hrest
        exact ⟨v₂, xs ++ ys, hloop, hw₁.cons hw₂, hne⟩
      · exact ⟨v₁, xs, rfl, hw₁, hzero⟩

theorem pollForTask {polls : List (List α)} (h : Inv v ws)
    (hlive : ∀ woken ∈ polls, ∀ x ∈ woken, v.Live x)
    (hidle : v.runningTaskCount = 0 → v.totalTaskCount ≠ 0 → ∃ woken ∈ polls, woken ≠ []) :
    ∃ v' xs, v.pollForTask polls = some v' ∧ Woken P v xs v' ∧
      (v.totalTaskCount ≠ 0 → v'.runningTaskCount ≠ 0) := by
  rw [TaskSystem.pollForTask]
  split_ifs with hlt hne
  · have hhead : ∀ x ∈ polls.headD [], v.Live x := by
      cases polls with
      | nil => simp
      | cons xs polls => exact hlive xs List.mem_cons_self
    obtain ⟨v', hpoll, hw⟩ := ioPoll (P := P) ⟨ws, h⟩ hhead
    obtain ⟨ws', h'⟩ := edits ⟨ws, h⟩ hw.edits
    obtain ⟨x, hx⟩ := h.exists_running hne
    exact ⟨v', _, hpoll, hw, fun _ => h'.count_ne_zero (edits_running hw.edits hx)⟩
  · obtain ⟨v', xs, hloop, hw, hcount⟩ := pollLoop (P := P) ⟨ws, h⟩ hlive
      (hidle (not_not.mp hne) (Nat.ne_zero_of_lt hlt))
    exact ⟨v', xs, hloop, hw, fun _ => hcount⟩
  · exact ⟨v, [], rfl, .nil P v, fun htotal => by omega⟩

theorem dispatch {polls : List (List α)} (h : Inv v ws)
    (hlive : ∀ woken ∈ polls, ∀ x ∈ woken, v.Live x)
    (hidle : v.runningTaskCount = 0 → v.totalTaskCount ≠ 0 → ∃ woken ∈ polls, woken ≠ []) :
    ∃ v', v.dispatch polls = some v'.picked ∧ Relation.ReflTransGen (Edit P) v v' ∧
      (v'.runningTasks = [] → v'.totalTaskCount = 0) := by
  rw [TaskSystem.dispatch]
  split_ifs with hzero
  · have hnil : v.runningTasks = [] := by
      have htotal := h.total
      exact List.length_eq_zero_iff.mp (by omega)
    refine ⟨v, ?_, .refl, fun _ => hzero⟩
    rw [TaskSystem.picked, hnil]
    rfl
  · obtain ⟨v', xs, hpoll, hw, hcount⟩ := h.pollForTask (P := P) hlive hidle
    obtain ⟨ws', h'⟩ := edits ⟨ws, h⟩ hw.edits
    have hne : v'.runningTasks ≠ [] := by
      rw [← List.length_pos_iff, ← h'.count]
      exact Nat.pos_of_ne_zero (hcount hzero)
    refine ⟨v', ?_, hw.edits, fun hnil => absurd hnil hne⟩
    rw [pickCurrentTask, hpoll, TaskSystem.picked]
    obtain ⟨y, hy⟩ := Option.ne_none_iff_exists'.mp (mt List.head?_eq_none_iff.mp hne)
    rw [hy]
    simp [ReadyQueue.first, hy]

end Inv

/-! ### Events -/

/-- What holds at every event. -/
structure Sound (v : TaskSystem (List α) α) : Prop where
  inv : ∃ ws, Inv v ws
  current : ∀ x, v.currentTask = some x → x ∈ v.runningTasks

theorem sound_init : Sound (init : TaskSystem (List α) α) :=
  ⟨⟨[], inv_init⟩, by simp [init]⟩

omit [DecidableEq α] in
theorem sound_picked (h : ∃ ws, Inv v ws) : Sound v.picked := by
  obtain ⟨ws, h⟩ := h
  exact ⟨⟨ws, h.picked⟩, fun x hx => List.mem_of_head? hx⟩

theorem released_state_of_ne {y : α} (hy : y ≠ x) (how : Leave) :
    (v.released x t how).state y = v.state y := by
  cases how <;> exact (state_put v x y _).trans (if_neg hy)

theorem released_state_self (ht : t.state = .running) {how : Leave} (hhow : how ≠ .remove) :
    (v.released x t how).Live x := by
  rw [live_iff]
  cases how with
  | switch => exact .inl ((state_put v x x _).trans (by simp [HevTask.switched, ht]))
  | waitio => exact .inr ((state_put v x x _).trans (by simp [HevTask.parked]))
  | remove => exact absurd rfl hhow

/-- A task that was live before the current task left is live, unless it is the one that has ended. -/
theorem released_live {y : α} {how : Leave} (ht : t.state = .running) (hlive : v.Live y)
    (hend : how = .remove → y ≠ x) : (v.released x t how).Live y := by
  by_cases hy : y = x
  · rw [hy]
    exact released_state_self ht fun h => hend h hy
  · rw [live_iff, released_state_of_ne hy, ← live_iff]
    exact hlive

section sound
variable {P : Fin 16 → Prop} {e : SchedEvent α} {v' : TaskSystem (List α) α}

theorem Sound.effect (h : Sound v) (he : Effect P v e v') : Sound v' := by
  obtain ⟨ws, hinv⟩ := h.inv
  cases he with
  | edits _ _ hedits =>
      obtain ⟨ws', h'⟩ := Inv.edits ⟨ws, hinv⟩ hedits
      refine ⟨⟨ws', h'⟩, ?_⟩
      intro x hx
      rw [edits_currentTask hedits] at hx
      rw [h'.mem_running]
      exact edits_running hedits ((hinv.mem_running x).mp (h.current x hx))
  | start hedits _ => exact sound_picked (Inv.edits ⟨ws, hinv⟩ hedits)
  | leave _ hmem hx hedits _ => exact sound_picked (Inv.edits (hinv.released hx hmem _) hedits)

/-- The current task leaves, live tasks are woken up, and a task is picked. -/
theorem Sound.leave {how : Leave} {polls : List (List α)} (h : Sound v)
    (hp : (SchedEvent.leave how polls).Possible v) :
    ∃ x t v', v.currentTask = some x ∧ x ∈ v.runningTasks ∧ v.tasks x = some t ∧
      (∀ woken ∈ polls, ∀ y ∈ woken, (v.released x t how).Live y) ∧
      (v.released x t how).dispatch polls = some v'.picked ∧
      Relation.ReflTransGen (Edit P) (v.released x t how) v' ∧
      (v'.runningTasks = [] → v'.totalTaskCount = 0) := by
  obtain ⟨ws, hinv⟩ := h.inv
  have hcur : v.currentTask ≠ none := by cases how <;> exact hp.1
  obtain ⟨x, hx⟩ := Option.ne_none_iff_exists'.mp hcur
  have hmem := h.current x hx
  have hpos : 0 < v.runningTaskCount := by
    rw [hinv.count]
    exact List.length_pos_of_mem hmem
  obtain ⟨t, ht, hst⟩ := Option.map_eq_some_iff.mp ((hinv.mem_running x).mp hmem)
  obtain ⟨ws', hinv'⟩ := hinv.released ht hmem how
  have hlive : ∀ woken ∈ polls, ∀ y ∈ woken, (v.released x t how).Live y := by
    intro woken hwoken y hy
    cases how with
    | switch => exact released_live hst (hp.2.1 woken hwoken y hy).1 (by simp)
    | waitio => exact released_live hst (hp.2.1 woken hwoken y hy).1 (by simp)
    | remove =>
        refine released_live hst (hp.2.1 woken hwoken y hy).1 ?_
        rintro - rfl
        exact (hp.2.1 woken hwoken y hy).2 hx
  have hidle : (v.released x t how).runningTaskCount = 0 →
      (v.released x t how).totalTaskCount ≠ 0 → ∃ woken ∈ polls, woken ≠ [] := by
    intro hcount htotal
    cases how with
    | switch => exact absurd hcount hpos.ne'
    | waitio =>
        change v.runningTaskCount - 1 = 0 at hcount
        exact hp.2.2 (by omega)
    | remove =>
        change v.runningTaskCount - 1 = 0 at hcount
        change v.totalTaskCount - 1 ≠ 0 at htotal
        exact hp.2.2 ⟨by omega, by omega⟩
  obtain ⟨v', hdisp, hedits, hdone⟩ := hinv'.dispatch (P := P) hlive hidle
  exact ⟨x, t, v', hx, hmem, ht, hlive, hdisp, hedits, hdone⟩

theorem Inv.unref {ws : List α} (h : Inv v ws) (hx : v.tasks x = some t)
    (hcount : (if t.state = .stopped then 1 else 2) ≤ t.refCount) :
    ∃ v', v.unref x = some v' ∧ Edit P v v' := by
  refine ⟨_, unref_eq hx, ?_⟩
  by_cases hne : t.refCount - 1 ≠ 0
  · rw [if_pos hne]
    have hpos := h.referenced x t hx
    exact .count hx (by omega)
  · rw [if_neg hne]
    refine .free hx ?_
    by_contra hs
    rw [if_neg hs] at hcount
    omega

theorem Inv.newTaskKey {ws : List α} (h : Inv v ws) :
    v.newTaskKey = some (if v.currentTask.isSome then v.minKey else 0) := by
  rw [TaskSystem.newTaskKey]
  split_ifs
  · exact h.getMinSchedKey
  · rfl

theorem Inv.run_stopped {ws : List α} (h : Inv v ws) (hx : v.tasks x = some t)
    (hs : t.state = .stopped) :
    v.run x = some { v.enlist x (t.started (if v.currentTask.isSome then v.minKey else 0)) with
      totalTaskCount := v.totalTaskCount + 1 } := by
  refine TaskSystem.run_stopped hx hs h.newTaskKey ?_
  intro hhead
  exact h.not_mem_running ((state_eq hx).trans (by rw [hs])) (by decide) (List.mem_of_head? hhead)

theorem Inv.run {ws : List α} (h : Inv v ws) (hx : v.tasks x = some t) :
    ∃ v', v.run x = some v' ∧ Relation.ReflTransGen (Edit P) v v' := by
  by_cases hs : t.state = .stopped
  · exact ⟨_, h.run_stopped hx hs, .single (.start hx hs)⟩
  · exact ⟨v, run_live hx hs, .refl⟩

/-- An event that can happen in a sound state ends without `abort`. -/
theorem Sound.exec (h : Sound v) (hp : e.Possible v) (hok : e.Sets P) :
    ∃ v', v.exec e = some v' ∧ Effect P v e v' := by
  obtain ⟨ws, hinv⟩ := h.inv
  cases e with
  | new x => exact ⟨_, rfl, .edits (by simp) (by simp) (.single (.new hp))⟩
  | ref x =>
      obtain ⟨t, ht⟩ := Option.ne_none_iff_exists'.mp hp
      have hpos := hinv.referenced x t ht
      exact ⟨_, modify_eq ht _, .edits (by simp) (by simp) (.single (.count ht (by omega)))⟩
  | unref x =>
      obtain ⟨t, ht, hcount⟩ := hp
      obtain ⟨v', hv', he⟩ := hinv.unref (P := P) ht hcount
      exact ⟨v', hv', .edits (by simp) (by simp) (.single he)⟩
  | setPriority x p =>
      obtain ⟨t, ht⟩ := Option.ne_none_iff_exists'.mp hp
      exact ⟨_, modify_eq ht _, .edits (by simp) (by simp) (.single (.priority ht hok))⟩
  | run x =>
      obtain ⟨t, ht⟩ := Option.ne_none_iff_exists'.mp hp
      obtain ⟨v', hv', he⟩ := hinv.run (P := P) ht
      exact ⟨v', hv', .edits (by simp) (by simp) he⟩
  | wakeup x =>
      obtain ⟨v', hv', hw⟩ := hinv.wakeupTask (P := P) hp
      exact ⟨v', hv', .edits (by simp) (by simp) hw.edits⟩
  | start polls =>
      obtain ⟨v', hv', he, hdone⟩ := hinv.dispatch (P := P)
        (fun woken hw y hy => (hp.2.1 woken hw y hy).1) fun hc ht => hp.2.2 ⟨hc, ht⟩
      exact ⟨_, hv', .start he hdone⟩
  | leave how polls =>
      obtain ⟨x, t, v', hx, hmem, ht, -, hdisp, he, hdone⟩ := h.leave (P := P) hp
      refine ⟨v'.picked, ?_, .leave hx hmem ht he hdone⟩
      rw [TaskSystem.exec, schedule, putBack_eq hx hmem ht, Option.bind_some, hdisp]

/-- A live task stays live, unless it is the one that ends. -/
theorem Sound.live (h : Sound v) (he : Effect P v e v') {y : α} (hy : v.Live y)
    (hend : ∀ polls, e = .leave .remove polls → v.currentTask ≠ some y) : v'.Live y := by
  obtain ⟨ws, hinv⟩ := h.inv
  cases he with
  | edits _ _ hedits => exact live_of_edits hedits hy
  | @start polls v₁ hedits _ =>
      have hlive : v₁.Live y := live_of_edits hedits hy
      exact hlive
  | @leave how polls x t v₁ hx hmem ht hedits _ =>
      have hrun : t.state = .running :=
        Option.some_inj.mp ((state_eq ht).symm.trans ((hinv.mem_running x).mp hmem))
      have hlive : v₁.Live y := live_of_edits hedits <| released_live hrun hy fun hhow hyx =>
        hend polls (by rw [hhow]) (by rw [hx, hyx])
      exact hlive

/-- A task that can run stays so, unless it gives the processor back. -/
theorem Effect.running (he : Effect P v e v') {y : α}
    (hy : v.state y = some .running)
    (hleave : ∀ how polls, e = .leave how polls → v.currentTask ≠ some y) :
    v'.state y = some .running := by
  cases he with
  | edits _ _ hedits => exact edits_running hedits hy
  | @start polls v₁ hedits _ =>
      have hrun : v₁.state y = some .running := edits_running hedits hy
      exact hrun
  | @leave how polls x t v₁ hx _ _ hedits _ =>
      have hyx : y ≠ x := fun hyx => hleave how polls rfl (by rw [hx, hyx])
      have hrun : v₁.state y = some .running :=
        edits_running hedits ((released_state_of_ne hyx how).trans hy)
      exact hrun

/-- A task runs as long as there is a live one. -/
theorem Sound.currentTask_ne_none (h : Sound v) (he : Effect P v e v') {y : α} (hy : v'.Live y)
    (hcur : v.currentTask ≠ none) : v'.currentTask ≠ none := by
  have hpicked : ∀ {u : TaskSystem (List α) α}, (∃ ws, Inv u ws) → u.Live y →
      (u.runningTasks = [] → u.totalTaskCount = 0) → u.picked.currentTask ≠ none := by
    rintro u ⟨ws, hinv⟩ hlive hdone hnone
    have hnil : u.runningTasks = [] := List.head?_eq_none_iff.mp hnone
    have htotal := hinv.total
    have hws : ws = [] := List.length_eq_zero_iff.mp (by rw [hdone hnil] at htotal; omega)
    rcases live_iff.mp hlive with hrun | hwait
    · simpa [hnil] using (hinv.mem_running y).mpr hrun
    · simpa [hws] using (hinv.mem_waiting y).mpr hwait
  obtain ⟨ws, hinv⟩ := h.inv
  cases he with
  | edits _ _ hedits => rwa [edits_currentTask hedits]
  | start hedits hdone => exact hpicked (Inv.edits ⟨ws, hinv⟩ hedits) hy hdone
  | leave _ hmem ht hedits hdone =>
      exact hpicked (Inv.edits (hinv.released ht hmem _) hedits) hy hdone

end sound

end TaskSystem

end HevTunnel
