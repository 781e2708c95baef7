import HevTunnel.TaskTimer

/-! # The scheduler with its timer

`TimerSystem.schedule` does what `TaskSystem.schedule` does when the polls wake up the tasks `wokenAt`
(`schedule_eq`), and when it has polled, the task of the timer is ready if the time of the first node is
over. -/

namespace HevTunnel

namespace TaskSystem

variable {Q α : Type} [DecidableEq α] [ReadyQueue Q α] {s s' : TaskSystem Q α} {x y : α}

omit [DecidableEq α] in
theorem linkTask_tasks (h : s.linkTask x = some s') : s'.tasks = s.tasks := by
  obtain ⟨t, -, h⟩ := Option.bind_eq_some_iff.mp h
  obtain ⟨q, -, h⟩ := Option.bind_eq_some_iff.mp h
  obtain rfl := Option.some_inj.mp h
  rfl

theorem insertTask_state (h : s.insertTask x = some s') (y : α) :
    s'.state y = if y = x then some .running else s.state y := by
  obtain ⟨s₁, hs₁, hlink⟩ := Option.bind_eq_some_iff.mp h
  obtain ⟨s₂, hs₂, hpure⟩ := Option.bind_eq_some_iff.mp hlink
  obtain ⟨t, -, rfl⟩ := Option.map_eq_some_iff.mp hs₁
  obtain rfl := Option.some_inj.mp hpure
  rw [state, linkTask_tasks hs₂, ← state, state_put, Option.map_some]

/-- A task that is woken up is ready, and the tasks that were ready still are. -/
theorem wakeupTask_ready (h : s.wakeupTask x = some s') (hy : y = x ∨ s.state y = some .running) :
    s'.state y = some .running := by
  obtain ⟨t, ht, h⟩ := Option.bind_eq_some_iff.mp h
  cases hst : t.state with
  | running =>
      rw [hst] at h
      obtain rfl := Option.some_inj.mp h
      rcases hy with rfl | hy
      · rw [state_eq ht, hst]
      · exact hy
  | stopped =>
      rw [hst] at h
      exact absurd h (by simp)
  | waiting =>
      rw [hst] at h
      obtain ⟨key, -, h⟩ := Option.bind_eq_some_iff.mp h
      obtain ⟨s₁, hs₁, h⟩ := Option.bind_eq_some_iff.mp h
      obtain ⟨t', -, rfl⟩ := Option.map_eq_some_iff.mp hs₁
      rw [insertTask_state h]
      split_ifs with hyx
      · rfl
      · rw [state_put, if_neg hyx]
        exact hy.resolve_left hyx

theorem ioPoll_ready {woken : List α} (h : s.ioPoll woken = some s')
    (hy : y ∈ woken ∨ s.state y = some .running) : s'.state y = some .running := by
  induction woken generalizing s with
  | nil =>
      obtain rfl := Option.some_inj.mp h
      exact hy.resolve_left (by simp)
  | cons x woken ih =>
      rw [ioPoll, List.foldlM_cons] at h
      obtain ⟨s₁, hs₁, hrest⟩ := Option.bind_eq_some_iff.mp h
      rcases hy with hy | hy
      · rcases List.mem_cons.mp hy with rfl | hy
        · exact ih hrest (.inr (wakeupTask_ready hs₁ (.inl rfl)))
        · exact ih hrest (.inl hy)
      · exact ih hrest (.inr (wakeupTask_ready hs₁ (.inr hy)))

theorem ioPoll_append (s : TaskSystem Q α) (a b : List α) :
    s.ioPoll (a ++ b) = (s.ioPoll a).bind fun s => s.ioPoll b :=
  List.foldlM_append ..

end TaskSystem

namespace TimerSystem

variable {Q T α : Type} [DecidableEq α] [ReadyQueue Q α] [ReadyQueue T α]
variable {m : TimerSystem Q T α} {s' : TaskSystem Q α} {ticks : List (Tick α)}

/-- The first node is there. -/
def Rooted (m : TimerSystem Q T α) : Prop :=
  ∀ x ∈ ReadyQueue.first m.sortTree, m.nodes x ≠ none

/-- The timer wakes up what `wokenAt` says. -/
theorem wakeup_eq (h : m.Rooted) (curr : Timespec) :
    m.wakeup curr = (m.sched.ioPoll (m.wokenAt ⟨[], curr⟩)).map (m.look curr) := by
  unfold wakeup wokenAt
  cases hx : ReadyQueue.first m.sortTree with
  | none => rfl
  | some x =>
      obtain ⟨node, hnode⟩ := Option.ne_none_iff_exists'.mp (h x hx)
      by_cases hcmp : curr.cmp node.expire < 0
      · simp [hnode, hcmp, TaskSystem.ioPoll]
      · simp [hnode, hcmp, TaskSystem.ioPoll]

theorem ioPoll_eq (h : m.Rooted) (tick : Tick α) :
    m.ioPoll tick = (m.sched.ioPoll (m.wokenAt tick)).map (m.look tick.curr) := by
  have hsplit : m.wokenAt tick = tick.woken ++ m.wokenAt ⟨[], tick.curr⟩ := rfl
  rw [ioPoll, hsplit, TaskSystem.ioPoll_append]
  cases m.sched.ioPoll tick.woken with
  | none => rfl
  | some s => exact wakeup_eq (m := { m with sched := s }) h tick.curr

/-- The loop ends with a poll that has made its tasks ready. -/
theorem pollLoop_eq (h : m.Rooted) (hs : m.sched.pollLoop (ticks.map m.wokenAt) = some s') :
    ∃ tick ∈ ticks, m.pollLoop ticks = some (m.look tick.curr s') ∧
      ∀ x ∈ m.wokenAt tick, s'.state x = some .running := by
  induction ticks generalizing m with
  | nil => exact absurd hs (by simp [TaskSystem.pollLoop])
  | cons tick ticks ih =>
      obtain ⟨s₁, hs₁, hs⟩ := Option.bind_eq_some_iff.mp hs
      have hpoll : m.ioPoll tick = some (m.look tick.curr s₁) := by
        rw [ioPoll_eq h, hs₁, Option.map_some]
      rw [pollLoop, hpoll, Option.bind_some]
      by_cases hzero : s₁.runningTaskCount = 0
      · rw [if_pos hzero] at hs
        obtain ⟨tick', hmem, hloop, hready⟩ := ih (m := m.look tick.curr s₁) h hs
        refine ⟨tick', List.mem_cons_of_mem _ hmem, ?_, hready⟩
        exact (if_pos hzero).trans hloop
      · rw [if_neg hzero] at hs
        obtain rfl := Option.some_inj.mp hs
        exact ⟨tick, List.mem_cons_self, if_neg hzero,
          fun x hx => TaskSystem.ioPoll_ready hs₁ (.inl hx)⟩

/-- What the polls have done: nothing, or the last one has made its tasks ready. -/
def Polled (m : TimerSystem Q T α) (ticks : List (Tick α)) (m' : TimerSystem Q T α) : Prop :=
  (m'.now = m.now ∧ m'.checked = m.checked) ∨
    ∃ tick ∈ ticks, m'.now = tick.curr ∧ m'.checked = tick.curr ∧
      ∀ x ∈ m.wokenAt tick, m'.sched.state x = some .running

theorem pollForTask_eq (h : m.Rooted) (hne : ticks ≠ [])
    (hs : m.sched.pollForTask (ticks.map m.wokenAt) = some s') :
    ∃ m', m.pollForTask ticks = some m' ∧ m'.sched = s' ∧ m'.sortTree = m.sortTree ∧
      m'.nodes = m.nodes ∧ Polled m ticks m' := by
  unfold TaskSystem.pollForTask at hs
  unfold pollForTask
  split_ifs at hs ⊢
  · obtain ⟨tick, rest, rfl⟩ := List.exists_cons_of_ne_nil hne
    have hs' : m.sched.ioPoll (m.wokenAt tick) = some s' := hs
    refine ⟨m.look tick.curr s', ?_, rfl, rfl, rfl, .inr ⟨tick, List.mem_cons_self, rfl, rfl, ?_⟩⟩
    · rw [List.head?_cons, Option.bind_some, ioPoll_eq h, hs', Option.map_some]
    · exact fun x hx => TaskSystem.ioPoll_ready hs' (.inl hx)
  · obtain ⟨tick, hmem, hloop, hready⟩ := pollLoop_eq h hs
    exact ⟨_, hloop, rfl, rfl, rfl, .inr ⟨tick, hmem, rfl, rfl, hready⟩⟩
  · obtain rfl := Option.some_inj.mp hs
    exact ⟨m, rfl, rfl, rfl, rfl, .inl ⟨rfl, rfl⟩⟩

theorem dispatch_eq (h : m.Rooted) (hne : ticks ≠ [])
    (hs : m.sched.dispatch (ticks.map m.wokenAt) = some s') :
    ∃ m', m.dispatch ticks = some m' ∧ m'.sched = s' ∧ m'.sortTree = m.sortTree ∧
      m'.nodes = m.nodes ∧ Polled m ticks m' := by
  unfold TaskSystem.dispatch at hs
  unfold dispatch
  split_ifs at hs ⊢
  · obtain rfl := Option.some_inj.mp hs
    exact ⟨_, rfl, rfl, rfl, rfl, .inl ⟨rfl, rfl⟩⟩
  · obtain ⟨s₁, hs₁, hs⟩ := Option.bind_eq_some_iff.mp hs
    obtain ⟨x, hx, hs⟩ := Option.bind_eq_some_iff.mp hs
    obtain rfl := Option.some_inj.mp hs
    obtain ⟨m₁, hm₁, rfl, htree, hnodes, hpolled⟩ := pollForTask_eq h hne hs₁
    refine ⟨{ m₁ with sched := { m₁.sched with currentTask := some x } }, ?_, rfl, htree, hnodes, hpolled⟩
    rw [pickCurrentTask, hm₁, Option.bind_some, hx, Option.map_some]

theorem schedule_eq (h : m.Rooted) (hne : ticks ≠ []) {how : Leave}
    (hs : m.sched.schedule how (ticks.map m.wokenAt) = some s') :
    ∃ m', m.schedule how ticks = some m' ∧ m'.sched = s' ∧ m'.sortTree = m.sortTree ∧
      m'.nodes = m.nodes ∧ Polled m ticks m' := by
  obtain ⟨s₁, hs₁, hs⟩ := Option.bind_eq_some_iff.mp hs
  rw [schedule, hs₁, Option.bind_some]
  exact dispatch_eq (m := { m with sched := s₁ }) h hne hs

end TimerSystem

end HevTunnel
