import HevTunnel.TaskFair
import HevTunnel.TimerRun

/-! # Sleepers go on

A task whose time is over goes on after a bounded number of task switches.  The first sleeper can run, so
it runs after at most `16 * n` of them, where `n` bounds the number of tasks that can run
(`TaskFair`); then it takes its node out of the tree and wakes up the next one.  A task that falls
asleep in the meantime goes behind all sleepers whose time is over. -/

namespace HevTunnel

open FairQueue

namespace TimerEvent

variable {α : Type}

/-- The current task gives the processor back. -/
def isLeave : TimerEvent α → Bool
  | .sleep ms _ _ _ => ms != 0
  | .leave _ _ => true
  | _ => false

/-- The priorities that the event gives to tasks. -/
def Sets (P : Fin 16 → Prop) : TimerEvent α → Prop
  | .other e => e.Sets P
  | _ => True

end TimerEvent

namespace TimerSystem

open TaskSystem

variable {Q T α : Type} [DecidableEq α] [ReadyQueue Q α] [ReadyQueue T α]
variable [LawfulReadyQueue Q] [LawfulReadyQueue T]
variable {m m' : TimerSystem Q T α} {xs : List α} {e : TimerEvent α} {es : List (TimerEvent α)} {x : α}

/-- The time of the task was over at the last look. -/
def Due (m : TimerSystem Q T α) (x : α) : Prop :=
  ∃ node, m.nodes x = some node ∧ node.expire.total ≤ m.checked.total

omit [DecidableEq α] [ReadyQueue Q α] [ReadyQueue T α] [LawfulReadyQueue Q] [LawfulReadyQueue T] in
theorem Due.mono (hdue : Due m x) (hnodes : m'.nodes x = m.nodes x)
    (hchecked : m.checked.total ≤ m'.checked.total) : Due m' x := by
  obtain ⟨node, hnode, hle⟩ := hdue
  exact ⟨node, hnodes.trans hnode, hle.trans hchecked⟩

/-- A task that falls asleep goes behind the sleepers whose time is over. -/
theorem Sleepers.idxOf_enqueue (h : Sleepers m xs) {c : α} {node : TimerNode}
    (hnodes : m'.nodes = Function.update m.nodes c (some node))
    (h' : Sleepers m' (enqueue (nodeKey m'.nodes) c xs)) (hnone : m.nodes c = none)
    (hlt : m.checked.total < node.expire.total) (hdue : Due m x) :
    (enqueue (nodeKey m'.nodes) c xs).head? = xs.head? ∧
      (enqueue (nodeKey m'.nodes) c xs).idxOf x = xs.idxOf x := by
  obtain ⟨nx, hnx, hle⟩ := hdue
  have hne : ∀ y, m.nodes y ≠ none → y ≠ c := by
    rintro y hy rfl
    exact hy hnone
  have hsorted : Sorted (nodeKey m'.nodes) xs := h.sorted.congr fun y hy => by
    rw [hnodes, nodeKey_update_of_ne (hne y ((h.mem_iff y).mp hy))]
  have hc : m'.nodes c = some node := by rw [hnodes, Function.update_self]
  have hnx' : m'.nodes x = some nx := by rw [hnodes, Function.update_of_ne (hne x (by simp [hnx])), hnx]
  obtain ⟨a, b, rfl, hins, -, hb⟩ := enqueue_split hsorted c
  have hxa : x ∈ a := by
    rcases List.mem_append.mp ((h.mem_iff x).mpr (by simp [hnx])) with hx | hx
    · exact hx
    · have hkey := (hb x hx).le
      rw [nodeKey, hc, nodeKey, hnx'] at hkey
      have htotal := TimerNode.total_le_of_key_le (h'.valid c node hc) (h'.valid x nx hnx') hkey
      omega
  rw [hins, List.head?_append_of_ne_nil _ (List.ne_nil_of_mem hxa),
    List.head?_append_of_ne_nil _ (List.ne_nil_of_mem hxa), List.idxOf_append_of_mem hxa,
    List.idxOf_append_of_mem hxa]
  exact ⟨rfl, rfl⟩

namespace Inv

/-- The first sleeper is in the list of the scheduler. -/
theorem head_mem {v : TaskSystem (List α) α} {k : ℕ} {y : α} (h : Inv m xs) (hr : Refines m.sched v)
    (hf : FairRun k v) (hdue : Due m x) (hy : xs.head? = some y) : y ∈ v.runningTasks := by
  obtain ⟨node, hnode, hle⟩ := hdue
  obtain ⟨y', -, hy', -, -, hready⟩ := h.first_ready hnode hle
  obtain rfl := Option.some_inj.mp (hy.symm.trans hy')
  obtain ⟨ws, hinv⟩ := hf.sound.inv
  rw [hinv.mem_running, state, ← hr.tasks]
  exact hready

/-- What an event does to the task system is at most one event there. -/
theorem sched_event {P : Fin 16 → Prop} (h : Inv m xs) (hp : e.Possible m) (hok : e.Sets P)
    (hexec : m.exec e = some m') :
    m'.sched = m.sched ∧ e.isLeave = false ∨
      ∃ e', e'.Possible m.sched ∧ e'.Sets P ∧ m.sched.exec e' = some m'.sched ∧ e'.isLeave = e.isLeave := by
  cases e with
  | sleep ms addr curr ticks =>
      obtain ⟨⟨c, hc, hnone⟩, hms, hcurr, ha⟩ := hp
      rw [TimerSystem.exec, TimerSystem.sleep] at hexec
      split_ifs at hexec with hzero
      · exact .inl ⟨by rw [Option.some_inj.mp hexec], by simp [TimerEvent.isLeave, hzero]⟩
      · obtain ⟨m₁, node, hm₁, h₁, hsched, hchecked, hnodes, hlt, -⟩ := h.arm hc hnone hcurr hzero addr
        have hc₁ : m₁.sched.currentTask = some c := hsched ▸ hc
        obtain ⟨m₂, hm₂, -, -, -, -, hs⟩ := h₁.leave hc₁ (ha hzero m₁ hm₁) (by simp)
          (by simpa [hnodes, hchecked] using hlt)
        rw [hm₁, Option.bind_some] at hexec
        obtain rfl := Option.some_inj.mp (hexec.symm.trans hm₂)
        have hp' := h₁.possible_leave hc₁ (ha hzero m₁ hm₁) (by simp)
        rw [hsched] at hs hp'
        exact .inr ⟨_, hp', trivial, hs, by simp [TimerEvent.isLeave, SchedEvent.isLeave, hzero]⟩
  | awake curr =>
      obtain ⟨⟨c, hc, hnode⟩, hcurr⟩ := hp
      obtain ⟨node, m₁, -, hm₁, -, -, -, -, hs⟩ := h.resume hc hnode hcurr
      rw [TimerSystem.exec, hm₁, Option.map_some] at hexec
      obtain rfl := Option.some_inj.mp hexec
      rcases hs with hs | ⟨x, hlive, hs⟩
      · exact .inl ⟨hs, rfl⟩
      · exact .inr ⟨.wakeup x, hlive, trivial, hs, rfl⟩
  | leave how ticks =>
      obtain ⟨⟨c, hc, hnone⟩, ha⟩ := hp
      obtain ⟨m₁, hm₁, -, -, -, -, hs⟩ := h.leave hc ha (fun _ => hnone) (by simp [hnone])
      obtain rfl := Option.some_inj.mp (hexec.symm.trans hm₁)
      exact .inr ⟨_, h.possible_leave hc ha fun _ => hnone, trivial, hs, rfl⟩
  | start ticks =>
      obtain ⟨hnone, ha⟩ := hp
      have hp' : (SchedEvent.start (ticks.map m.wokenAt)).Possible m.sched :=
        ⟨hnone, h.answers ha (by simp)⟩
      obtain ⟨s, hs, -⟩ := h.sched.exec hp'
      obtain ⟨m₁, hm₁, rfl, -⟩ := dispatch_eq h.rooted ha.1 hs
      obtain rfl := Option.some_inj.mp (hexec.symm.trans hm₁)
      exact .inr ⟨_, hp', trivial, hs, rfl⟩
  | other e =>
      obtain ⟨s, hs, rfl⟩ := Option.map_eq_some_iff.mp hexec
      refine .inr ⟨e, hp.2.1, hok, hs, ?_⟩
      have hpicks := hp.1
      cases e <;> simp_all [TimerEvent.isLeave, SchedEvent.isLeave, SchedEvent.picks]

/-- A sleeper whose time is over does not move back.  If the first sleeper is the current task, it takes
its node out; otherwise it stays the first. -/
theorem progress (h : Inv m xs) (hp : e.Possible m) (hexec : m.exec e = some m') (hdue : Due m x)
    (hne : m.sched.currentTask ≠ some x) (hcur : m.sched.currentTask ≠ none) :
    ∃ xs', Inv m' xs' ∧ Due m' x ∧
      (e.isLeave = false ∧ xs'.idxOf x < xs.idxOf x ∨
        m.sched.currentTask ≠ xs.head? ∧ xs'.head? = xs.head? ∧ xs'.idxOf x ≤ xs.idxOf x) := by
  -- a task without a node is not the first sleeper
  have hfirst : ∀ c, m.sched.currentTask = some c → m.nodes c = none → m.sched.currentTask ≠ xs.head? := by
    rintro c hc hnone hhead
    exact (h.mem_iff c).mp (List.mem_of_head? (hhead.symm.trans hc)) hnone
  cases e with
  | sleep ms addr curr ticks =>
      obtain ⟨⟨c, hc, hnone⟩, hms, hcurr, ha⟩ := hp
      rw [TimerSystem.exec, TimerSystem.sleep] at hexec
      split_ifs at hexec with hzero
      · obtain rfl := Option.some_inj.mp hexec
        exact ⟨xs, h, hdue, .inr ⟨hfirst c hc hnone, rfl, le_rfl⟩⟩
      · obtain ⟨m₁, node, hm₁, h₁, hsched, hchecked, hnodes, hlt, -⟩ := h.arm hc hnone hcurr hzero addr
        have hc₁ : m₁.sched.currentTask = some c := hsched ▸ hc
        obtain ⟨m₂, hm₂, h₂, hnodes₂, -, hchecked₂, -⟩ := h₁.leave hc₁ (ha hzero m₁ hm₁) (by simp)
          (by simpa [hnodes, hchecked] using hlt)
        rw [hm₁, Option.bind_some] at hexec
        obtain rfl := Option.some_inj.mp (hexec.symm.trans hm₂)
        have hxc : x ≠ c := fun hxc => hne (hxc ▸ hc)
        obtain ⟨hhead, hidx⟩ := h.idxOf_enqueue hnodes h₁.toSleepers hnone hlt hdue
        refine ⟨_, h₂, hdue.mono ?_ (hchecked ▸ hchecked₂), .inr ⟨hfirst c hc hnone, hhead, hidx.le⟩⟩
        rw [hnodes₂, hnodes, Function.update_of_ne hxc]
  | awake curr =>
      obtain ⟨⟨c, hc, hnode⟩, hcurr⟩ := hp
      obtain ⟨node, m₁, -, hm₁, h₁, hnodes, -, hchecked, -⟩ := h.resume hc hnode hcurr
      rw [TimerSystem.exec, hm₁, Option.map_some] at hexec
      obtain rfl := Option.some_inj.mp hexec
      have hcx : c ≠ x := fun hcx => hne (hcx ▸ hc)
      refine ⟨_, h₁, hdue.mono ?_ hchecked, ?_⟩
      · rw [hnodes, Function.update_of_ne hcx.symm]
      · by_cases hhead : xs.head? = some c
        · obtain ⟨ys, rfl⟩ := List.head?_eq_some_iff.mp hhead
          rw [List.erase_cons_head, List.idxOf_cons_ne _ hcx]
          exact .inl ⟨rfl, Nat.lt_succ_self _⟩
        · exact .inr ⟨fun heq => hhead (heq.symm.trans hc), head?_erase hhead, idxOf_erase_le hcx xs⟩
  | leave how ticks =>
      obtain ⟨⟨c, hc, hnone⟩, ha⟩ := hp
      obtain ⟨m₁, hm₁, h₁, hnodes, -, hchecked, -⟩ := h.leave hc ha (fun _ => hnone) (by simp [hnone])
      obtain rfl := Option.some_inj.mp (hexec.symm.trans hm₁)
      exact ⟨xs, h₁, hdue.mono (congrFun hnodes x) hchecked, .inr ⟨hfirst c hc hnone, rfl, le_rfl⟩⟩
  | start ticks => exact absurd hp.1 hcur
  | other e =>
      obtain ⟨m₁, hm₁, h₁, -⟩ := h.other hp.1 hp.2.1
      obtain rfl := Option.some_inj.mp (hexec.symm.trans hm₁)
      obtain ⟨c, hc⟩ := Option.ne_none_iff_exists'.mp hcur
      obtain ⟨s, -, rfl⟩ := Option.map_eq_some_iff.mp hexec
      exact ⟨xs, h₁, hdue, .inr ⟨hfirst c hc (hp.2.2 c hc), rfl, le_rfl⟩⟩

theorem fair_exec {v : TaskSystem (List α) α} {k : ℕ} (h : Inv m xs) (hp : e.Possible m)
    (hok : e.Sets (· ≠ 0)) (hexec : m.exec e = some m') (hr : Refines m.sched v) (hf : FairRun k v)
    (hk : k < 2 ^ 59 - 1) :
    ∃ v', Refines m'.sched v' ∧ FairRun (k + 1) v' ∧
      (v' = v ∧ e.isLeave = false ∨
        ∃ e', e'.Possible v ∧ Effect (· ≠ 0) v e' v' ∧ e'.isLeave = e.isLeave) := by
  rcases h.sched_event hp hok hexec with ⟨hsame, hleave⟩ | ⟨e', hp', hok', hs, hleave⟩
  · exact ⟨v, by rwa [hsame], ⟨hf.sound, hf.fair.mono, hf.front⟩, .inl ⟨rfl, hleave⟩⟩
  · obtain ⟨v', hr', hf', heff⟩ := FairRun.exec hr hf hk hp' hok' hs
    exact ⟨v', hr', hf', .inr ⟨e', (hr.possible_iff e').mp hp', heff, hleave⟩⟩

theorem fair_runs {v : TaskSystem (List α) α} {k : ℕ} (h : Inv m xs) (hes : m.runs es = some m')
    (hr : Refines m.sched v) (hf : FairRun k v) (hk : k + es.length < 2 ^ 59)
    (hok : ∀ e ∈ es, e.Sets (· ≠ 0)) :
    ∃ v' xs', Refines m'.sched v' ∧ FairRun (k + es.length) v' ∧ Inv m' xs' := by
  induction es generalizing m xs v k with
  | nil =>
      obtain rfl := Option.some_inj.mp hes
      exact ⟨v, xs, hr, hf, h⟩
  | cons e es ih =>
      rw [List.length_cons] at hk ⊢
      obtain ⟨m₁, hp, hexec, hes⟩ := GuardedRun.runs_cons hes
      obtain ⟨m₁', xs₁, hm₁, h₁, -⟩ := h.exec hp
      obtain rfl := Option.some_inj.mp (hexec.symm.trans hm₁)
      obtain ⟨v₁, hr₁, hf₁, -⟩ := h.fair_exec hp (hok e List.mem_cons_self) hexec hr hf (by omega)
      have hlen : k + (es.length + 1) = (k + 1) + es.length := by omega
      rw [hlen]
      exact ih h₁ hes hr₁ hf₁ (by omega) fun e' he' => hok e' (List.mem_cons_of_mem _ he')

/-- As long as a sleeper whose time is over does not run, no more tasks give the processor back than the
sleepers before it take, and the first one has patience for. -/
theorem leaves_le {v : TaskSystem (List α) α} {k n : ℕ} {y : α} (h : Inv m xs)
    (hes : m.runs es = some m') (hr : Refines m.sched v) (hf : FairRun k v)
    (hk : k + es.length < 2 ^ 59) (hok : ∀ e ∈ es, e.Sets (· ≠ 0)) (hdue : Due m x)
    (hcur : m.sched.currentTask ≠ none) (hy : xs.head? = some y)
    (hn : ∀ es₁ u, es₁ <+: es → m.runs es₁ = some u → u.sched.runningTaskCount ≤ n)
    (hnever : ∀ es₁ u, es₁ <+: es → m.runs es₁ = some u → u.sched.currentTask ≠ some x) :
    es.countP TimerEvent.isLeave ≤
      xs.idxOf x * (16 * n) + patience n (keyOf v.tasks) y v.runningTasks := by
  induction es generalizing m xs v k y with
  | nil => exact Nat.zero_le _
  | cons e es ih =>
      rw [List.length_cons] at hk
      obtain ⟨m₁, hp, hexec, hes⟩ := GuardedRun.runs_cons hes
      have hne := hnever [] m List.nil_prefix rfl
      obtain ⟨xs₁, h₁, hdue₁, hmove⟩ := h.progress hp hexec hdue hne hcur
      obtain ⟨v₁, hr₁, hf₁, hstep⟩ := h.fair_exec hp (hok e List.mem_cons_self) hexec hr hf (by omega)
      have hx₁ : x ∈ xs₁ := by
        obtain ⟨node, hnode, -⟩ := hdue₁
        exact (h₁.mem_iff x).mpr (by simp [hnode])
      have hcur₁ : m₁.sched.currentTask ≠ none := by
        rw [hr₁.current]
        rw [hr.current] at hcur
        rcases hstep with ⟨rfl, -⟩ | ⟨e', -, heff, -⟩
        · exact hcur
        · have hlive := h₁.live x hx₁
          rw [Live, hr₁.tasks] at hlive
          exact hf.sound.currentTask_ne_none heff hlive hcur
      have hcount₁ := hn [e] m₁ (by simp) (GuardedRun.runs_cons_of hp hexec)
      obtain ⟨y₁, hy₁⟩ : ∃ y₁, xs₁.head? = some y₁ :=
        Option.ne_none_iff_exists'.mp (by simpa using List.ne_nil_of_mem hx₁)
      have hrest := ih h₁ hes hr₁ hf₁ (by omega) (fun e' he' => hok e' (List.mem_cons_of_mem _ he')) hdue₁
        hcur₁ hy₁ (GuardedRun.forall_prefix_of_cons hp hexec hn)
        (GuardedRun.forall_prefix_of_cons hp hexec hnever)
      rw [List.countP_cons]
      rcases hmove with ⟨hleave, hidx⟩ | ⟨hother, hhead, hidx⟩
      · -- the next sleeper has its own patience
        rw [hr₁.count] at hcount₁
        have hlt := hf₁.patience_lt (h₁.head_mem hr₁ hf₁ hdue₁ hy₁) hcount₁
        have hmul := Nat.mul_le_mul_right (16 * n) (Nat.succ_le_of_lt hidx)
        rw [Nat.succ_mul] at hmul
        simp only [hleave, Bool.false_eq_true, if_false]
        omega
      · obtain rfl := Option.some_inj.mp (hy.symm.trans (hhead.symm.trans hy₁))
        have hmul := Nat.mul_le_mul_right (16 * n) hidx
        rcases hstep with ⟨rfl, hleave⟩ | ⟨e', hp', heff, hleave⟩
        · simp only [hleave, Bool.false_eq_true, if_false]
          omega
        · have hcount := hn [] m List.nil_prefix rfl
          rw [hr.count] at hcount
          rw [hr.current, hy] at hother
          rw [hr.current] at hcur
          obtain ⟨-, -, hle⟩ := hf.patience (by omega) heff hp' hcur (h.head_mem hr hf hdue hy) hother hcount
          rw [hleave] at hle
          omega

end Inv

/-- A sleeper whose time is over goes on: if there are never more than `n` tasks that can run, it is the
current task by the time `16 * n` tasks have given the processor back for each task of the system. -/
theorem runs_resumed {s : TaskSystem Q α} {es₀ : List (SchedEvent α)} {now : Timespec}
    {es₁ : List (TimerEvent α)} {n : ℕ} (h₀ : TaskSystem.init.runs es₀ = some s) (hnow : now.Normal)
    (h₁ : (init s now : TimerSystem Q T α).runs es₁ = some m) (h : m.runs es = some m')
    (hlen : es₀.length + es₁.length + es.length < 2 ^ 59)
    (hok₀ : ∀ e ∈ es₀, e.Sets (· ≠ 0)) (hok : ∀ e ∈ es₁ ++ es, e.Sets (· ≠ 0)) (hdue : Due m x)
    (hcur : m.sched.currentTask ≠ none)
    (hn : ∀ es' u, es' <+: es → m.runs es' = some u → u.sched.runningTaskCount ≤ n)
    (hleaves : m.sched.totalTaskCount * (16 * n) ≤ es.countP TimerEvent.isLeave) :
    ∃ es' u, es' <+: es ∧ m.runs es' = some u ∧ u.sched.currentTask = some x := by
  obtain ⟨v₀, hr₀, hf₀⟩ := FairRun.runs Refines.init fairRun_init (by omega) hok₀ h₀
  obtain ⟨v, xs, hr, hf, hinv⟩ := (inv_init ⟨v₀, hr₀, hf₀.sound⟩ hnow).fair_runs h₁ hr₀ hf₀ (by omega)
    fun e he => hok e (List.mem_append_left _ he)
  by_contra hnone
  push Not at hnone
  have hx : x ∈ xs := by
    obtain ⟨node, hnode, -⟩ := hdue
    exact (hinv.mem_iff x).mpr (by simp [hnode])
  obtain ⟨y, hy⟩ : ∃ y, xs.head? = some y :=
    Option.ne_none_iff_exists'.mp (by simpa using List.ne_nil_of_mem hx)
  have hle := hinv.leaves_le h hr hf (by omega) (fun e he => hok e (List.mem_append_right _ he)) hdue hcur
    hy hn hnone
  have hcount := hn [] m List.nil_prefix rfl
  rw [hr.count] at hcount
  have hlt := hf.patience_lt (hinv.head_mem hr hf hdue hy) hcount
  have hidx : xs.idxOf x + 1 ≤ m.sched.totalTaskCount :=
    (List.idxOf_lt_length_iff.mpr hx).trans_le (hinv.sched.length_le hinv.nodup hinv.live)
  have hmul := Nat.mul_le_mul_right (16 * n) hidx
  rw [Nat.succ_mul] at hmul
  omega

/-- Both tasks have slept too long, but only the first sleeper is woken up. -/
def lateSleeps : List (TimerEvent Bool) :=
  [.sleep 9 1 ⟨0, 5⟩ [⟨[], ⟨0, 6⟩⟩], .sleep 2 2 ⟨0, 7⟩ [⟨[], ⟨1, 0⟩⟩]]

/-- It goes on, and then the tasks that can run yield in turn. -/
def afterSleeps : List (TimerEvent Bool) :=
  [.awake ⟨1, 0⟩, .leave .switch [⟨[], ⟨1, 0⟩⟩], .awake ⟨1, 0⟩] ++
    List.replicate 64 (.leave .switch [⟨[], ⟨1, 0⟩⟩])

theorem runs_resumed_two : ∃ s m es' u,
    (TaskSystem.init : TaskSystem (List Bool) Bool).runs sleeperTasks = some s ∧
    (init s ⟨0, 0⟩ : TimerSystem (List Bool) (List Bool) Bool).runs lateSleeps = some m ∧
    m.sched.state true = some .waiting ∧
    es' <+: afterSleeps ∧ m.runs es' = some u ∧ u.sched.currentTask = some true := by
  have hrun : ∃ s ∈ (TaskSystem.init : TaskSystem (List Bool) Bool).runs sleeperTasks,
      ∃ m ∈ (init s ⟨0, 0⟩ : TimerSystem (List Bool) (List Bool) Bool).runs lateSleeps,
        m.sched.state true = some .waiting ∧
        (∃ node ∈ m.nodes true, node.expire.total ≤ m.checked.total) ∧ m.sched.currentTask ≠ none ∧
        m.sched.totalTaskCount = 2 ∧ (m.runs afterSleeps).isSome ∧
        ∀ es' ∈ afterSleeps.inits, ∀ u ∈ m.runs es', u.sched.runningTaskCount ≤ 2 := by
    decide +kernel
  obtain ⟨s, hs, m, hm, hwait, ⟨node, hnode, hle⟩, hcur, htotal, hsome, hcount⟩ := hrun
  obtain ⟨m', hm'⟩ := Option.isSome_iff_exists.mp hsome
  obtain ⟨es', u, hpre, hu, hlast⟩ := runs_resumed (n := 2) hs (by decide) hm hm' (by decide)
    (by simp [sleeperTasks, SchedEvent.Sets])
    (by simp [lateSleeps, afterSleeps, TimerEvent.Sets]) ⟨node, hnode, hle⟩ hcur
    (fun es' u hpre hu => hcount es' ((List.mem_inits _ _).mpr hpre) u hu) (by rw [htotal]; decide)
  exact ⟨s, m, es', u, hs, hm, hwait, hpre, hu, hlast⟩

end TimerSystem

end HevTunnel
