import HevTunnel.GuardedRun
import HevTunnel.TimerInv

/-! # Runs of a task system with sleepers

The events of a task system with its timer: a task sleeps, a sleeper goes on, and everything else that
happens to tasks.  The clock does not go back.  Every event that can happen ends and keeps
`TimerSystem.Inv` (`Inv.exec`); a task that sleeps keeps its node (`Keeps`).  So no sleeper is forgotten
(`runs_ready`), the timeout of the reactor (`runs_timeout`) and the result of `hev_task_sleep`
(`runs_remaining`) are right. -/

namespace HevTunnel

/-- What happens.  `curr` is the clock when it is read, and `ticks` are the polls of the scheduler. -/
inductive TimerEvent (α : Type) where
  /-- The current task calls `hev_task_sleep`; its node will lie at `addr`. -/
  | sleep (milliseconds addr : ℕ) (curr : Timespec) (ticks : List (Tick α))
  /-- The current task comes back from `hev_task_yield` in `hev_task_timer_wait`. -/
  | awake (curr : Timespec)
  /-- The current task gives the processor back. -/
  | leave (how : Leave) (ticks : List (Tick α))
  /-- `hev_task_system_run`. -/
  | start (ticks : List (Tick α))
  /-- Anything else. -/
  | other (e : SchedEvent α)
deriving DecidableEq, Repr

/-- The milliseconds of the sleeps. -/
def TimerEvent.Sleeps {α : Type} (P : ℕ → Prop) : TimerEvent α → Prop
  | .sleep ms _ _ _ => P ms
  | _ => True

/-- The event is one of those that pick a task. -/
def SchedEvent.picks {α : Type} : SchedEvent α → Bool
  | .start _ => true
  | .leave _ _ => true
  | _ => false

namespace TimerSystem

variable {Q T α : Type} [DecidableEq α] [ReadyQueue T α]

/-- What the polls answer: the reactor wakes up live tasks, and when no task can run, the reactor or the
timer wakes up one. -/
def Answers (m : TimerSystem Q T α) (ended : Option α) (idle : Prop) (ticks : List (Tick α)) : Prop :=
  ticks ≠ [] ∧
    (∀ tick ∈ ticks, Later m.now tick.curr ∧ ∀ x ∈ tick.woken, m.sched.Live x ∧ ended ≠ some x) ∧
    (idle → ∃ tick ∈ ticks, m.wokenAt tick ≠ [])

instance (m : TimerSystem Q T α) (ended : Option α) (idle : Prop) [Decidable idle]
    (ticks : List (Tick α)) : Decidable (m.Answers ended idle ticks) :=
  inferInstanceAs (Decidable (_ ∧ _ ∧ _))

/-- The answers after the current task has given the processor back. -/
def LeaveAnswers (m : TimerSystem Q T α) (ticks : List (Tick α)) : Leave → Prop
  | .switch => m.Answers none False ticks
  | .waitio => m.Answers none (m.sched.runningTaskCount = 1) ticks
  | .remove => m.Answers m.sched.currentTask
      (m.sched.runningTaskCount = 1 ∧ m.sched.totalTaskCount ≠ 1) ticks

instance (m : TimerSystem Q T α) (ticks : List (Tick α)) :
    (how : Leave) → Decidable (m.LeaveAnswers ticks how)
  | .switch => inferInstanceAs (Decidable (m.Answers _ _ _))
  | .waitio => inferInstanceAs (Decidable (m.Answers _ _ _))
  | .remove => inferInstanceAs (Decidable (m.Answers _ _ _))

end TimerSystem

/-- When an event can happen.  The milliseconds of a sleep are an `unsigned int`; when a sleeper comes back
from `hev_task_yield` it goes on in `hev_task_timer_wait`. -/
def TimerEvent.Possible {Q T α : Type} [DecidableEq α] [ReadyQueue Q α] [ReadyQueue T α]
    (m : TimerSystem Q T α) : TimerEvent α → Prop
  | .sleep ms addr curr ticks => (∃ c ∈ m.sched.currentTask, m.nodes c = none) ∧ ms < 2 ^ 32 ∧
      TimerSystem.Later m.now curr ∧
      (ms ≠ 0 → ∀ m₁ ∈ m.arm ms addr curr, m₁.LeaveAnswers ticks .waitio)
  | .awake curr => (∃ c ∈ m.sched.currentTask, m.nodes c ≠ none) ∧ TimerSystem.Later m.now curr
  | .leave how ticks => (∃ c ∈ m.sched.currentTask, m.nodes c = none) ∧ m.LeaveAnswers ticks how
  | .start ticks => m.sched.currentTask = none ∧
      m.Answers none (m.sched.runningTaskCount = 0 ∧ m.sched.totalTaskCount ≠ 0) ticks
  | .other e => e.picks = false ∧ e.Possible m.sched ∧ ∀ c ∈ m.sched.currentTask, m.nodes c = none

instance TimerEvent.decidablePossible {Q T α : Type} [DecidableEq α] [ReadyQueue Q α] [ReadyQueue T α]
    (m : TimerSystem Q T α) : (e : TimerEvent α) → Decidable (e.Possible m)
  | .sleep _ _ _ _ => inferInstanceAs (Decidable ((∃ c ∈ m.sched.currentTask, _) ∧ _ ∧ _ ∧ (_ → _)))
  | .awake _ => inferInstanceAs (Decidable ((∃ c ∈ m.sched.currentTask, _) ∧ _))
  | .leave _ _ => inferInstanceAs (Decidable ((∃ c ∈ m.sched.currentTask, _) ∧ _))
  | .start _ => inferInstanceAs (Decidable (_ ∧ _))
  | .other _ => inferInstanceAs (Decidable (_ ∧ _ ∧ ∀ c ∈ m.sched.currentTask, _))

namespace TimerSystem

variable {Q T α : Type} [DecidableEq α] [ReadyQueue Q α] [ReadyQueue T α]

/-- The system after an event. -/
def exec (m : TimerSystem Q T α) : TimerEvent α → Option (TimerSystem Q T α)
  | .sleep ms addr curr ticks => m.sleep ms addr curr ticks
  | .awake curr => (m.resume curr).map Prod.snd
  | .leave how ticks => m.schedule how ticks
  | .start ticks => m.dispatch ticks
  | .other e => (m.sched.exec e).map fun s => { m with sched := s }

/-- The system after some events; `none` if one of them could not happen or ended in `abort`. -/
def runs : TimerSystem Q T α → List (TimerEvent α) → Option (TimerSystem Q T α) :=
  GuardedRun.runs TimerEvent.Possible exec

variable [LawfulReadyQueue Q] [LawfulReadyQueue T]
variable {m : TimerSystem Q T α} {xs : List α} {ticks : List (Tick α)} {c : α}

/-- What an event does to the nodes: the clock does not go back, and a node is an old one or that of the
current task, which begins to sleep. -/
structure Keeps (m : TimerSystem Q T α) (e : TimerEvent α) (m' : TimerSystem Q T α) : Prop where
  clock : m.now.total ≤ m'.now.total
  node : ∀ x, ∀ node ∈ m'.nodes x, m.nodes x = some node ∨ ∃ ms addr curr ticks,
    e = .sleep ms addr curr ticks ∧ m.sched.currentTask = some x ∧
      node.expire = curr.getExpire ms ∧ curr.total ≤ m'.now.total

/-- Each node is that of a sleep of `ms` milliseconds, with `P ms`, that has begun. -/
def Began (P : ℕ → Prop) (m : TimerSystem Q T α) : Prop :=
  ∀ x, ∀ node ∈ m.nodes x, ∃ ms start, P ms ∧ node.expire = Timespec.getExpire start ms ∧
    start.total ≤ m.now.total

omit [DecidableEq α] [ReadyQueue Q α] [ReadyQueue T α] [LawfulReadyQueue Q] [LawfulReadyQueue T] in
theorem keeps_of_eq {m' : TimerSystem Q T α} {e : TimerEvent α} (hnodes : m'.nodes = m.nodes)
    (hnow : m.now.total ≤ m'.now.total) : Keeps m e m' :=
  ⟨hnow, fun x node hnode => .inl (by rwa [hnodes] at hnode)⟩

theorem inv_init {s : TaskSystem Q α} (hs : s.Legal) {now : Timespec} (hnow : now.Normal) :
    Inv (init s now : TimerSystem Q T α) [] where
  sched := hs
  tree := LawfulReadyQueue.lists_empty _
  sorted := List.Pairwise.nil
  nodup := List.nodup_nil
  mem_iff x := by simp [init]
  live x hx := by simp at hx
  valid x node hx := by simp [init] at hx
  normal := hnow
  clock := ⟨hnow, le_rfl⟩
  ready x hx := by simp at hx

/-- The tasks that the timer wakes up are live. -/
theorem Sleepers.answers (h : Sleepers m xs) {ended : Option α} {idle : Prop}
    (ha : m.Answers ended idle ticks) (hended : ∀ x ∈ ended, m.nodes x = none) :
    m.sched.Answers ended idle (ticks.map m.wokenAt) := by
  obtain ⟨-, hwoken, hidle⟩ := ha
  refine ⟨?_, fun hi => ?_⟩
  · rintro woken hw x hx
    obtain ⟨tick, htick, rfl⟩ := List.mem_map.mp hw
    rcases h.of_mem_wokenAt hx with hx | ⟨hx, node, hnode, -⟩
    · exact (hwoken tick htick).2 x hx
    · refine ⟨h.live x (List.mem_of_head? hx), fun he => ?_⟩
      simp [hended x he] at hnode
  · obtain ⟨tick, htick, hne⟩ := hidle hi
    exact ⟨_, List.mem_map_of_mem htick, hne⟩

theorem Sleepers.possible_leave (h : Sleepers m xs) (hc : m.sched.currentTask = some c) {how : Leave}
    (ha : m.LeaveAnswers ticks how) (hend : how = .remove → m.nodes c = none) :
    (SchedEvent.leave how (ticks.map m.wokenAt)).Possible m.sched := by
  have hcur : m.sched.currentTask ≠ none := by simp [hc]
  cases how with
  | switch => exact ⟨hcur, h.answers ha (by simp)⟩
  | waitio => exact ⟨hcur, h.answers ha (by simp)⟩
  | remove =>
      refine ⟨hcur, h.answers ha fun x hx => ?_⟩
      obtain rfl := Option.some_inj.mp (hc.symm.trans hx)
      exact hend rfl

omit [DecidableEq α] [ReadyQueue Q α] [LawfulReadyQueue Q] [LawfulReadyQueue T] in
theorem LeaveAnswers.polls {how : Leave} (ha : m.LeaveAnswers ticks how) :
    ticks ≠ [] ∧ ∀ tick ∈ ticks, Later m.now tick.curr := by
  cases how <;> exact ⟨ha.1, fun tick ht => (ha.2.1 tick ht).1⟩

namespace Inv

/-- The current task gives the processor back.  If it sleeps, its time is not over. -/
theorem leave (h : Inv m xs) (hc : m.sched.currentTask = some c) {how : Leave}
    (ha : m.LeaveAnswers ticks how) (hend : how = .remove → m.nodes c = none)
    (hsleep : ∀ node ∈ m.nodes c, m.checked.total < node.expire.total) :
    ∃ m', m.schedule how ticks = some m' ∧ Inv m' xs ∧ m'.nodes = m.nodes ∧
      m.now.total ≤ m'.now.total ∧ m.checked.total ≤ m'.checked.total ∧
      m.sched.exec (.leave how (ticks.map m.wokenAt)) = some m'.sched := by
  obtain ⟨s, hs, hlegal, hlive, hrun, -, -⟩ := h.sched.exec (h.possible_leave hc ha hend)
  obtain ⟨hne, hclock⟩ := ha.polls
  obtain ⟨m', hm', rfl, htree, hnodes, hpolled⟩ := schedule_eq h.rooted hne hs
  refine ⟨m', hm', Inv.polled h.toSleepers hpolled htree hnodes hlegal (fun x hx => ?_) hclock
    fun x hx node hnode hle => ?_, hnodes, hpolled.now_le hclock, h.checked_le hpolled hclock, hs⟩
  · refine hlive x (h.live x hx) ?_
    rintro polls hleave hcx
    obtain rfl := Option.some_inj.mp (hc.symm.trans hcx)
    injection hleave with hhow
    exact (h.mem_iff c).mp hx (hend hhow)
  · refine hrun x (h.ready x hx node hnode hle) fun _ _ _ hcx => ?_
    obtain rfl := Option.some_inj.mp (hc.symm.trans hcx)
    exact absurd (hsleep node hnode) (not_lt.mpr hle)

theorem start (h : Inv m xs) (hp : (TimerEvent.start ticks).Possible m) :
    ∃ m', m.dispatch ticks = some m' ∧ Inv m' xs ∧ m'.nodes = m.nodes ∧ m.now.total ≤ m'.now.total := by
  obtain ⟨hnone, ha⟩ := hp
  have hp' : (SchedEvent.start (ticks.map m.wokenAt)).Possible m.sched :=
    ⟨hnone, h.answers ha (by simp)⟩
  obtain ⟨s, hs, hlegal, hlive, hrun, -, -⟩ := h.sched.exec hp'
  obtain ⟨m', hm', rfl, htree, hnodes, hpolled⟩ := dispatch_eq h.rooted ha.1 hs
  have hclock : ∀ tick ∈ ticks, Later m.now tick.curr := fun tick ht => (ha.2.1 tick ht).1
  refine ⟨m', hm', Inv.polled h.toSleepers hpolled htree hnodes hlegal (fun x hx => ?_) hclock
    fun x hx node hnode hle => ?_, hnodes, hpolled.now_le hclock⟩
  · exact hlive x (h.live x hx) (by simp)
  · exact hrun x (h.ready x hx node hnode hle) (by simp)

/-- An event of the task system that picks no task. -/
theorem other (h : Inv m xs) {e : SchedEvent α} (hpicks : e.picks = false) (hp : e.Possible m.sched) :
    ∃ m', m.exec (.other e) = some m' ∧ Inv m' xs ∧ m'.nodes = m.nodes ∧ m'.now = m.now := by
  obtain ⟨s, hs, hlegal, hlive, hrun, -, -⟩ := h.sched.exec hp
  have hleave : ∀ how polls, e ≠ .leave how polls := by
    rintro how polls rfl
    simp [SchedEvent.picks] at hpicks
  refine ⟨{ m with sched := s }, by rw [TimerSystem.exec, hs, Option.map_some], ⟨⟨hlegal, h.tree, h.sorted,
    h.nodup, h.mem_iff, fun x hx => ?_, h.valid, h.normal, h.clock⟩, fun x hx node hnode hle => ?_⟩, rfl, rfl⟩
  · exact hlive x (h.live x hx) fun polls he => absurd he (hleave _ _)
  · exact hrun x (h.ready x hx node hnode hle) fun how polls he => absurd he (hleave _ _)

/-- Every event that can happen ends and keeps the invariant. -/
theorem exec {e : TimerEvent α} (h : Inv m xs) (hp : e.Possible m) :
    ∃ m' xs', m.exec e = some m' ∧ Inv m' xs' ∧ Keeps m e m' := by
  cases e with
  | sleep ms addr curr ticks =>
      obtain ⟨⟨c, hc, hnone⟩, hms, hcurr, ha⟩ := hp
      rw [TimerSystem.exec, TimerSystem.sleep]
      split_ifs with hzero
      · exact ⟨m, xs, rfl, h, keeps_of_eq rfl le_rfl⟩
      · obtain ⟨m₁, node, hm₁, h₁, hsched, hchecked, hnodes, hlt, hnow, hexpire⟩ :=
          h.arm hc hnone hcurr hzero addr
        have hc₁ : m₁.sched.currentTask = some c := hsched ▸ hc
        obtain ⟨m', hm', h', hnodes', hnow', -⟩ := h₁.leave hc₁ (ha hzero m₁ hm₁) (by simp)
          (by simpa [hnodes, hchecked] using hlt)
        rw [hnow] at hnow'
        refine ⟨m', _, by rw [hm₁, Option.bind_some, hm'], h', hcurr.2.trans hnow', fun x n hn => ?_⟩
        rw [hnodes', hnodes] at hn
        rcases of_update_eq_some hn with ⟨rfl, rfl⟩ | ⟨-, hn⟩
        · exact .inr ⟨ms, addr, curr, ticks, rfl, hc, hexpire, hnow'⟩
        · exact .inl hn
  | awake curr =>
      obtain ⟨⟨c, hc, hnode⟩, hcurr⟩ := hp
      obtain ⟨node, m', -, hm', h', hnodes, hnow, -⟩ := h.resume hc hnode hcurr
      refine ⟨m', _, by rw [TimerSystem.exec, hm', Option.map_some], h', hnow ▸ hcurr.2,
        fun x n hn => .inl ?_⟩
      exact of_update_none_eq_some (hnodes ▸ hn)
  | leave how ticks =>
      obtain ⟨⟨c, hc, hnone⟩, ha⟩ := hp
      obtain ⟨m', hm', h', hnodes, hnow, -⟩ := h.leave hc ha (fun _ => hnone) (by simp [hnone])
      exact ⟨m', xs, hm', h', keeps_of_eq hnodes hnow⟩
  | start ticks =>
      obtain ⟨m', hm', h', hnodes, hnow⟩ := h.start hp
      exact ⟨m', xs, hm', h', keeps_of_eq hnodes hnow⟩
  | other e =>
      obtain ⟨m', hm', h', hnodes, hnow⟩ := h.other hp.1 hp.2.1
      exact ⟨m', xs, hm', h', keeps_of_eq hnodes (hnow ▸ le_rfl)⟩

theorem runs {m' : TimerSystem Q T α} {es : List (TimerEvent α)} (h : Inv m xs)
    (hes : m.runs es = some m') : ∃ xs', Inv m' xs' := by
  refine GuardedRun.runs_invariant (I := fun m => ∃ xs, Inv m xs) ?_ ⟨xs, h⟩ hes
  rintro m e m' ⟨xs, h⟩ hp hm'
  obtain ⟨m₁, xs', hm₁, h', -⟩ := h.exec hp
  obtain rfl := Option.some_inj.mp (hm'.symm.trans hm₁)
  exact ⟨xs', h'⟩

/-- Every node is that of a sleep of the run. -/
theorem runs_began {m' : TimerSystem Q T α} {es : List (TimerEvent α)} {P : ℕ → Prop} (h : Inv m xs)
    (hm : Began P m) (hP : ∀ e ∈ es, e.Sleeps P) (hes : m.runs es = some m') : Began P m' := by
  refine (GuardedRun.runs_invariant_of (I := fun m => (∃ xs, Inv m xs) ∧ Began P m) ?_ ⟨⟨xs, h⟩, hm⟩ hP hes).2
  rintro m e m' ⟨⟨xs, h⟩, hm⟩ he hp hm'
  obtain ⟨m₁, xs', hm₁, h', hkeeps⟩ := h.exec hp
  obtain rfl := Option.some_inj.mp (hm'.symm.trans hm₁)
  refine ⟨⟨xs', h'⟩, fun x node hnode => ?_⟩
  rcases hkeeps.node x node hnode with hnode | ⟨ms, addr, start, ticks, rfl, -, hexpire, hle⟩
  · obtain ⟨ms, start, hms, hexpire, hle⟩ := hm x node hnode
    exact ⟨ms, start, hms, hexpire, hle.trans hkeeps.clock⟩
  · exact ⟨ms, start, he, hexpire, hle⟩

/-- A task keeps its node as long as it sleeps. -/
theorem runs_asleep {m' : TimerSystem Q T α} {es : List (TimerEvent α)} {t : Timespec} {node : TimerNode}
    (h : Inv m xs) (ht : t.total ≤ m.now.total) (hnode : m.nodes c = some node) (hes : m.runs es = some m')
    (hasleep : ∀ es₁ u, es₁ <+: es → m.runs es₁ = some u → u.nodes c ≠ none) :
    (∃ xs, Inv m' xs) ∧ t.total ≤ m'.now.total ∧ m'.nodes c = some node := by
  refine GuardedRun.runs_invariant_while
    (I := fun m => (∃ xs, Inv m xs) ∧ t.total ≤ m.now.total ∧ m.nodes c = some node)
    (C := fun m => m.nodes c ≠ none) ?_ ⟨⟨xs, h⟩, ht, hnode⟩ hasleep hes
  rintro m e m' ⟨⟨xs, h⟩, ht, hnode⟩ hsome hp hm'
  obtain ⟨m₁, xs', hm₁, h', hkeeps⟩ := h.exec hp
  obtain rfl := Option.some_inj.mp (hm'.symm.trans hm₁)
  obtain ⟨node', hnode'⟩ := Option.ne_none_iff_exists'.mp hsome
  refine ⟨⟨xs', h'⟩, ht.trans hkeeps.clock, ?_⟩
  rcases hkeeps.node c node' hnode' with hold | ⟨ms, addr, start, ticks, rfl, hc, -⟩
  · rw [hnode', ← hold, hnode]
  · -- a sleeper does not fall asleep
    obtain ⟨⟨c', hc', hnone⟩, -⟩ := hp
    obtain rfl := Option.some_inj.mp (hc.symm.trans hc')
    simp [hnode] at hnone

end Inv

/-! ### Results -/

variable {s : TaskSystem Q α} {es₀ : List (SchedEvent α)} {now : Timespec} {es : List (TimerEvent α)}

/-- In every state of a run, if the time of a sleeper was over when the timer was looked at last, then
the first sleeper, whose time is not later, can run; and every event that can happen next ends. -/
theorem runs_ready (h₀ : TaskSystem.init.runs es₀ = some s) (hnow : now.Normal)
    (h : (init s now : TimerSystem Q T α).runs es = some m) :
    (∀ x node, m.nodes x = some node → node.expire.total ≤ m.checked.total →
      ∃ y node', ReadyQueue.first m.sortTree = some y ∧ m.nodes y = some node' ∧
        node'.expire.total ≤ node.expire.total ∧ m.sched.state y = some .running) ∧
    ∀ e : TimerEvent α, e.Possible m → ∃ m', m.exec e = some m' := by
  obtain ⟨xs, hinv⟩ := (inv_init (TaskSystem.legal_init.runs h₀) hnow).runs h
  refine ⟨fun x node hnode hle => ?_, fun e hp => ?_⟩
  · obtain ⟨y, node', hy, hnode', hle', hready⟩ := hinv.first_ready hnode hle
    exact ⟨y, node', hinv.first.trans hy, hnode', hle', hready⟩
  · obtain ⟨m', -, hm', -⟩ := hinv.exec hp
    exact ⟨m', hm'⟩

/-- Two tasks. -/
def sleeperTasks : List (SchedEvent Bool) := [.new true, .new false, .run true, .run false, .start [[]]]

/-- Both of them sleep, the second one for less time, and goes on when its time is over. -/
def twoSleeps : List (TimerEvent Bool) :=
  [.sleep 9 1 ⟨0, 5⟩ [⟨[], ⟨0, 6⟩⟩], .sleep 2 2 ⟨0, 7⟩ [⟨[], ⟨0, 8⟩⟩, ⟨[], ⟨0, 2000007⟩⟩]]

theorem runs_ready_two : ∃ s m y node',
    (TaskSystem.init : TaskSystem (List Bool) Bool).runs sleeperTasks = some s ∧
    (init s ⟨0, 0⟩ : TimerSystem (List Bool) (List Bool) Bool).runs twoSleeps = some m ∧
    ReadyQueue.first m.sortTree = some y ∧ m.nodes y = some node' ∧ m.sched.state y = some .running := by
  have hrun : ∃ s ∈ (TaskSystem.init : TaskSystem (List Bool) Bool).runs sleeperTasks,
      ∃ m ∈ (init s ⟨0, 0⟩ : TimerSystem (List Bool) (List Bool) Bool).runs twoSleeps,
        ∃ node ∈ m.nodes false, node.expire.total ≤ m.checked.total := by decide +kernel
  obtain ⟨s, hs, m, hm, node, hnode, hle⟩ := hrun
  obtain ⟨y, node', hy, hnode', -, hready⟩ := (runs_ready hs (by decide) hm).1 false node hnode hle
  exact ⟨s, m, y, node', hs, hm, hy, hnode', hready⟩

/-- In every state of a run with sleeps of less than `2 ^ 31` milliseconds the timeout of the reactor is
right: it is negative if no task sleeps, and otherwise a poll after this time wakes up the first sleeper,
and a poll a millisecond earlier does not. -/
theorem runs_timeout (h₀ : TaskSystem.init.runs es₀ = some s) (hnow : now.Normal)
    (h : (init s now : TimerSystem Q T α).runs es = some m) (hes : ∀ e ∈ es, e.Sleeps (· < 2 ^ 31))
    {curr : Timespec} (hcurr : Later m.now curr) :
    (∀ x, m.nodes x = none) ∧ m.getTimeout curr = some (-1) ∨
    ∃ x, ∃ d : ℕ, m.nodes x ≠ none ∧ ReadyQueue.first m.sortTree = some x ∧
      m.getTimeout curr = some (d : ℤ) ∧
      (∀ tick : Tick α, tick.curr.Normal → curr.total + d * 1000000 ≤ tick.curr.total →
        x ∈ m.wokenAt tick) ∧
      ∀ tick : Tick α, Later curr tick.curr → tick.curr.total + 1000000 ≤ curr.total + d * 1000000 →
        m.wokenAt tick = tick.woken := by
  have hinit := inv_init (T := T) (TaskSystem.legal_init.runs h₀) hnow
  have hbegan := hinit.runs_began (fun x node hnode => by simp [init] at hnode) hes h
  obtain ⟨xs, hinv⟩ := hinit.runs h
  rw [hinv.first, getTimeout, hinv.first]
  cases hx : xs.head? with
  | none =>
      refine .inl ⟨fun x => by_contra fun hne => ?_, rfl⟩
      have hmem := (hinv.mem_iff x).mpr hne
      rw [List.head?_eq_none_iff.mp hx] at hmem
      exact List.not_mem_nil hmem
  | some x =>
      have hne := (hinv.mem_iff x).mp (List.mem_of_head? hx)
      obtain ⟨node, hnode⟩ := Option.ne_none_iff_exists'.mp hne
      have hvalid := hinv.valid x node hnode
      obtain ⟨ms, start, hms, hexpire, hstart⟩ := hbegan x node hnode
      have htotal := start.getExpire_total ms
      rw [← hexpire] at htotal
      have hle := hcurr.2
      have htime := Timespec.getTime_eq hcurr.1 hvalid (by omega)
      have hlt : curr.getTime node.expire < 2 ^ 31 := by split_ifs at htime <;> omega
      refine .inr ⟨x, curr.getTime node.expire, hne, rfl, ?_, fun tick htick hle => ?_,
        fun tick htick hle => ?_⟩
      · simp only [hnode, Option.map_some]
        rw [BitVec.toInt_eq_toNat_cond, BitVec.toNat_ofNat, Nat.mod_eq_of_lt (by omega), if_pos (by omega)]
      · refine hinv.mem_wokenAt hx hnode htick ?_
        split_ifs at htime <;> omega
      · have hcmp : tick.curr.cmp node.expire < 0 := by
          have hcurr' := htick.2
          rw [Timespec.cmp_neg_iff htick.1 hvalid]
          split_ifs at htime <;> omega
        simp [wokenAt, hinv.first, hx, hnode, hcmp]

/-- The first of two sleepers has gone on, and the other one has seven milliseconds left. -/
theorem runs_timeout_seven : ∃ s m x,
    (TaskSystem.init : TaskSystem (List Bool) Bool).runs sleeperTasks = some s ∧
    (init s ⟨0, 0⟩ : TimerSystem (List Bool) (List Bool) Bool).runs
      (twoSleeps ++ [.awake ⟨0, 2000008⟩]) = some m ∧
    m.nodes x ≠ none ∧ m.getTimeout ⟨0, 2000008⟩ = some 7 ∧
    ∀ tick : Tick Bool, tick.curr.Normal → 9000008 ≤ tick.curr.total → x ∈ m.wokenAt tick := by
  have hrun : ∃ s ∈ (TaskSystem.init : TaskSystem (List Bool) Bool).runs sleeperTasks,
      ∃ m ∈ (init s ⟨0, 0⟩ : TimerSystem (List Bool) (List Bool) Bool).runs
          (twoSleeps ++ [.awake ⟨0, 2000008⟩]),
        Later m.now ⟨0, 2000008⟩ ∧ m.getTimeout ⟨0, 2000008⟩ = some 7 := by decide +kernel
  obtain ⟨s, hs, m, hm, hlater, hseven⟩ := hrun
  rcases runs_timeout hs (by decide) hm (by simp [twoSleeps, TimerEvent.Sleeps]) hlater with
    ⟨-, hnone⟩ | ⟨x, d, hne, -, hd, hwoken, -⟩
  · simp [hseven] at hnone
  · obtain rfl : d = 7 := by
      rw [hseven, Option.some_inj] at hd
      omega
    exact ⟨s, m, x, hs, hm, hne, hseven,
      fun tick htick hle => hwoken tick htick (by simpa [Timespec.total] using hle)⟩

/-- What `hev_task_sleep` returns: 0 exactly if the time is over, and otherwise the rest in milliseconds,
rounded up.  The task `c` begins to sleep at `start`, does not go on in the meantime, and goes on at
`curr`. -/
theorem runs_remaining (h₀ : TaskSystem.init.runs es₀ = some s) (hnow : now.Normal)
    (h : (init s now : TimerSystem Q T α).runs es = some m) {m' : TimerSystem Q T α} {ms addr : ℕ}
    {start curr : Timespec} {es' : List (TimerEvent α)} (hc : m.sched.currentTask = some c)
    (h' : m.runs (.sleep ms addr start ticks :: es') = some m')
    (hasleep : ∀ es₁ u, es₁ <+: es' → m.runs (.sleep ms addr start ticks :: es₁) = some u → u.nodes c ≠ none)
    (hc' : m'.sched.currentTask = some c) (hcurr : Later m'.now curr) :
    ∃ r m₂, m'.resume curr = some (r, m₂) ∧
      (r = 0 ↔ start.total + ms * 1000000 ≤ curr.total) ∧
      (r ≠ 0 → curr.total + (r - 1) * 1000000 < start.total + ms * 1000000 ∧
        start.total + ms * 1000000 ≤ curr.total + r * 1000000) ∧ r ≤ ms := by
  obtain ⟨xs, hinv⟩ := (inv_init (TaskSystem.legal_init.runs h₀) hnow).runs h
  obtain ⟨m₁, hp, hm₁, h'⟩ := GuardedRun.runs_cons h'
  obtain ⟨m₁', xs₁, hm₁', hinv₁, hkeeps⟩ := hinv.exec hp
  obtain rfl := Option.some_inj.mp (hm₁.symm.trans hm₁')
  have hasleep₁ : ∀ es₁ u, es₁ <+: es' → m₁.runs es₁ = some u → u.nodes c ≠ none := fun es₁ u hpre hu =>
    hasleep es₁ u hpre ((GuardedRun.runs_cons_of hp hm₁).trans hu)
  obtain ⟨⟨c', hc₁, hnone⟩, hbound, hstart, -⟩ := hp
  obtain rfl := Option.some_inj.mp (hc.symm.trans hc₁)
  obtain ⟨node, hnode⟩ := Option.ne_none_iff_exists'.mp (hasleep₁ [] m₁ List.nil_prefix rfl)
  have hbegun : node.expire = start.getExpire ms ∧ start.total ≤ m₁.now.total := by
    rcases hkeeps.node c node hnode with hold | ⟨_, _, _, _, heq, -, hexpire, hle⟩
    · simp [hold] at hnone
    · cases heq
      exact ⟨hexpire, hle⟩
  obtain ⟨⟨xs', hinv'⟩, hle, hnode'⟩ := hinv₁.runs_asleep hbegun.2 hnode h' hasleep₁
  obtain ⟨node', m₂, hsame, hm₂, -⟩ := hinv'.resume hc' (by simp [hnode']) hcurr
  obtain rfl := Option.some_inj.mp (hnode'.symm.trans hsame)
  rw [hbegun.1] at hm₂
  exact ⟨_, m₂, hm₂, Timespec.remaining hstart.1 hcurr.1 (hle.trans hcurr.2) hbound⟩

/-- A task is woken up by the reactor after one of its nine milliseconds; eight are left. -/
theorem runs_remaining_eight : ∃ s m m' m₂,
    (TaskSystem.init : TaskSystem (List Bool) Bool).runs sleeperTasks = some s ∧
    (init s ⟨0, 0⟩ : TimerSystem (List Bool) (List Bool) Bool).runs [] = some m ∧
    m.runs [.sleep 9 1 ⟨0, 5⟩ [⟨[], ⟨0, 6⟩⟩], .leave .waitio [⟨[true], ⟨0, 1000006⟩⟩]] = some m' ∧
    m'.resume ⟨0, 1000007⟩ = some (8, m₂) := by
  have hrun : ∃ s ∈ (TaskSystem.init : TaskSystem (List Bool) Bool).runs sleeperTasks,
      ∃ m ∈ (init s ⟨0, 0⟩ : TimerSystem (List Bool) (List Bool) Bool).runs [],
      ∃ m' ∈ m.runs [.sleep 9 1 ⟨0, 5⟩ [⟨[], ⟨0, 6⟩⟩], .leave .waitio [⟨[true], ⟨0, 1000006⟩⟩]],
        m.sched.currentTask = some true ∧ m'.sched.currentTask = some true ∧ Later m'.now ⟨0, 1000007⟩ ∧
        ∀ es₁ ∈ [TimerEvent.leave Leave.waitio [⟨[true], ⟨0, 1000006⟩⟩]].inits,
          ∀ u ∈ m.runs (.sleep 9 1 ⟨0, 5⟩ [⟨[], ⟨0, 6⟩⟩] :: es₁), u.nodes true ≠ none := by decide +kernel
  obtain ⟨s, hs, m, hm, m', hm', hc, hc', hlater, hasleep⟩ := hrun
  obtain ⟨r, m₂, hr, hzero, hrest, -⟩ := runs_remaining hs (by decide) hm hc hm'
    (fun es₁ u hpre hu => hasleep es₁ ((List.mem_inits _ _).mpr hpre) u hu) hc' hlater
  simp only [Timespec.total] at hzero hrest
  obtain rfl : r = 8 := by
    have hpos : r ≠ 0 := fun h => absurd (hzero.mp h) (by decide)
    have := hrest hpos
    omega
  exact ⟨s, m, m', m₂, hs, hm, hm', hr⟩

end TimerSystem

end HevTunnel
