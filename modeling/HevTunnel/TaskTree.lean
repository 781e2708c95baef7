import HevTunnel.RBTreeCached
import HevTunnel.TaskFair

/-! # The scheduler with its red-black tree

`running_tasks` is a `HevRBTreeCached` whose nodes are the fields `sched_node` of the tasks.  A task is
named by the address of this field, so `container_of` is the identity.  The memory of the tree is that
of the tasks that exist; a task that is freed takes its node with it.

`TaskTree` is a lawful ready queue, so what holds for the scheduler with a list holds for the program. -/

namespace HevTunnel

variable {w : ℕ}

instance (p : Word w) : Decidable (Aligned p) := inferInstanceAs (Decidable (p &&& 3 = 0))

/-- The address of a `sched_node`: not `NULL`, and the two low bits are free for the colour. -/
@[ext] structure TaskPtr (w : ℕ) where
  val : Word w
  ne_zero : val ≠ 0
  aligned : Aligned val
deriving DecidableEq

/-- The task at an address. -/
def TaskPtr.ofWord (p : Word w) : Option (TaskPtr w) :=
  if h : p ≠ 0 ∧ Aligned p then some ⟨p, h.1, h.2⟩ else none

theorem TaskPtr.ofWord_val (x : TaskPtr w) : ofWord x.val = some x := dif_pos ⟨x.ne_zero, x.aligned⟩

/-- A relation between tasks, on addresses. -/
def TaskPtr.OnWords (r : TaskPtr w → TaskPtr w → Prop) (a b : Word w) : Prop :=
  ∃ y z : TaskPtr w, y.val = a ∧ z.val = b ∧ r y z

theorem TaskPtr.onWords_val {r : TaskPtr w → TaskPtr w → Prop} (y z : TaskPtr w) :
    OnWords r y.val z.val ↔ r y z := by
  constructor
  · rintro ⟨y', z', hy, hz, hr⟩
    rwa [TaskPtr.ext hy, TaskPtr.ext hz] at hr
  · exact fun hr => ⟨y, z, rfl, rfl, hr⟩

/-- `running_tasks`, and the field `sched_node` of every task. -/
structure TaskTree (w : ℕ) where
  root : Word w
  leftmost : Word w
  schedNode : Word w → RBNode w

namespace TaskTree

/-- The tree in the memory of the tasks that exist. -/
def view (q : TaskTree w) (alive : TaskPtr w → Bool) : RBCached w :=
  ⟨⟨q.root, fun p => (TaskPtr.ofWord p).bind fun x => if alive x then some (q.schedNode p) else none⟩,
    q.leftmost⟩

/-- The fields after an operation on the tree. -/
def store (q : TaskTree w) (s : RBCached w) : TaskTree w :=
  ⟨s.base.root, s.leftmost, fun p => (s.base.mem p).getD (q.schedNode p)⟩

/-- The loop and the calls of `_hev_task_system_insert_task`. -/
def insert (alive : TaskPtr w → Bool) (less : TaskPtr w → Option Bool) (fuel : ℕ) (q : TaskTree w)
    (x : TaskPtr w) : Option (TaskTree w) :=
  ((q.view alive).insert (fun p => (TaskPtr.ofWord p).bind less) fuel x.val).map fun r => q.store r.1

/-- `hev_rbtree_cached_erase`. -/
def erase (alive : TaskPtr w → Bool) (fuel : ℕ) (q : TaskTree w) (x : TaskPtr w) :
    Option (TaskTree w) :=
  ((q.view alive).erase fuel x.val).map q.store

instance : ReadyQueue (TaskTree w) (TaskPtr w) where
  empty := ⟨0, 0, fun _ => ⟨0, 0, 0⟩⟩
  first q := TaskPtr.ofWord q.leftmost
  insert := insert
  erase := erase

variable {q : TaskTree w} {alive : TaskPtr w → Bool} {ns : List (TaskPtr w)} {x : TaskPtr w}

/-- The tree has the nodes of these tasks, in this order. -/
def Lists (alive : TaskPtr w → Bool) (q : TaskTree w) (ns : List (TaskPtr w)) : Prop :=
  (q.view alive).Lists (ns.map TaskPtr.val)

theorem view_mem (q : TaskTree w) (alive : TaskPtr w → Bool) (x : TaskPtr w) :
    (q.view alive).base.mem x.val = if alive x then some (q.schedNode x.val) else none := by
  simp only [view, TaskPtr.ofWord_val, Option.bind_some]

/-- A task in the tree exists. -/
theorem lists_alive (h : Lists alive q ns) : ∀ y ∈ ns, alive y := by
  intro y hy
  obtain ⟨_, _, _, _, hnode⟩ := h.wellFormed.isNode (List.mem_map_of_mem hy)
  have hread := hnode.read
  rw [view_mem] at hread
  by_contra hdead
  rw [if_neg hdead] at hread
  simp at hread

/-- The tree does not depend on the other tasks. -/
theorem lists_frame {alive' : TaskPtr w → Bool} (h : Lists alive q ns) (ha : ∀ y ∈ ns, alive' y) :
    Lists alive' q ns := by
  refine ⟨h.wellFormed.congr ?_, h.leftmost⟩
  intro p hp
  obtain ⟨y, hy, rfl⟩ := List.mem_map.mp hp
  exact ((view_mem q alive' y).trans (if_pos (ha y hy))).trans
    ((view_mem q alive y).trans (if_pos (lists_alive h y hy))).symm

/-- The tree after an operation is in the fields. -/
theorem lists_store {s : RBCached w} (h : s.Lists (ns.map TaskPtr.val)) (ha : ∀ y ∈ ns, alive y) :
    Lists alive (q.store s) ns := by
  refine ⟨h.wellFormed.congr ?_, h.leftmost⟩
  intro p hp
  obtain ⟨_, _, _, _, hnode⟩ := h.wellFormed.isNode hp
  obtain ⟨y, hy, rfl⟩ := List.mem_map.mp hp
  refine (view_mem _ alive y).trans ?_
  simp only [if_pos (ha y hy), store, hnode.read, Option.getD_some]

theorem lists_first (h : Lists alive q ns) : TaskPtr.ofWord q.leftmost = ns.head? := by
  have hleft : q.leftmost = (ns.map TaskPtr.val).head?.getD 0 := h.leftmost
  rw [hleft]
  cases ns with
  | nil => exact dif_neg fun hzero => hzero.1 rfl
  | cons y ns => exact TaskPtr.ofWord_val y

variable [NeZero w] {fuel : ℕ}

theorem lists_insert {less : TaskPtr w → Option Bool} {r : TaskPtr w → TaskPtr w → Prop}
    [DecidableRel r] (h : Lists alive q ns) (hless : ∀ y ∈ ns, less y = some (decide (r x y)))
    (hmono : ns.Pairwise fun y z => r x y → r x z) (hx : alive x) (hnot : x ∉ ns)
    (hfuel : ns.length < fuel) :
    ∃ q', insert alive less fuel q x = some q' ∧ Lists alive q' (ns.orderedInsert r x) := by
  classical
  have hless' : ∀ p ∈ ns.map TaskPtr.val,
      (TaskPtr.ofWord p).bind less = some (decide (TaskPtr.OnWords r x.val p)) := by
    intro p hp
    obtain ⟨y, hy, rfl⟩ := List.mem_map.mp hp
    rw [TaskPtr.ofWord_val, Option.bind_some, hless y hy]
    simp only [TaskPtr.onWords_val]
  have hmono' : (ns.map TaskPtr.val).Pairwise fun a b =>
      TaskPtr.OnWords r x.val a → TaskPtr.OnWords r x.val b := by
    rw [List.pairwise_map]
    simpa only [TaskPtr.onWords_val] using hmono
  have hmem : (q.view alive).base.mem x.val ≠ none := by
    rw [view_mem, if_pos hx]
    simp
  have hnot' : x.val ∉ ns.map TaskPtr.val := fun hin => by
    obtain ⟨y, hy, hyx⟩ := List.mem_map.mp hin
    exact hnot (TaskPtr.ext hyx ▸ hy)
  obtain ⟨s, flag, hins, hs, -⟩ := RBCached.insert_lists h hless' hmono' x.ne_zero x.aligned
    hmem hnot'
  rw [← List.map_orderedInsert r _ TaskPtr.val ns x
    (fun a _ => (TaskPtr.onWords_val a x).symm) (fun a _ => (TaskPtr.onWords_val x a).symm)] at hs
  refine ⟨q.store s, ?_, lists_store hs ?_⟩
  · rw [insert, hins fuel (by simpa using hfuel), Option.map_some]
  · intro y hy
    rcases (List.mem_orderedInsert r).mp hy with rfl | hy
    · exact hx
    · exact lists_alive h y hy

theorem lists_erase (h : Lists alive q ns) (hx : x ∈ ns) (hfuel : ns.length < fuel) :
    ∃ q', erase alive fuel q x = some q' ∧ Lists alive q' (ns.erase x) := by
  obtain ⟨a, b, -, hns, herase⟩ := List.exists_erase_eq hx
  have h' := h
  rw [Lists, hns, List.map_append, List.map_cons] at h'
  obtain ⟨s, hs, hlists⟩ := RBCached.erase_lists h'
  rw [← List.map_append, ← herase] at hlists
  refine ⟨q.store s, ?_, lists_store hlists fun y hy => lists_alive h y (List.mem_of_mem_erase hy)⟩
  rw [erase, hs fuel (by simpa [hns] using hfuel), Option.map_some]

instance : LawfulReadyQueue (TaskTree w) where
  Lists := Lists
  lists_empty _ := ⟨RBHeap.wellFormed_empty _, rfl⟩
  lists_frame := lists_frame
  lists_first := lists_first
  lists_insert := lists_insert
  lists_erase := lists_erase

end TaskTree

namespace TaskSystem

open FairQueue

/-- The tree and the counters of a task system fit its tasks: `ns` are the tasks that can run, in the
order of the tree, and `ws` those that wait. -/
structure Consistent (s : TaskSystem (TaskTree w) (TaskPtr w)) (ns ws : List (TaskPtr w)) : Prop where
  tree : TaskTree.Lists s.allocated s.runningTasks ns
  sorted : Sorted (keyOf s.tasks) ns
  running_nodup : ns.Nodup
  running : ∀ x, x ∈ ns ↔ s.state x = some .running
  waiting_nodup : ws.Nodup
  waiting : ∀ x, x ∈ ws ↔ s.state x = some .waiting
  count : s.runningTaskCount = ns.length
  total : s.totalTaskCount = ns.length + ws.length
  current : ∀ x, s.currentTask = some x → x ∈ ns

theorem Refines.consistent [NeZero w] {s : TaskSystem (TaskTree w) (TaskPtr w)}
    {v : TaskSystem (List (TaskPtr w)) (TaskPtr w)} (h : Refines s v) (hv : Sound v) :
    ∃ ns ws, s.Consistent ns ws := by
  obtain ⟨ws, hinv⟩ := hv.inv
  have hstate : ∀ x, s.state x = v.state x := fun x => by rw [state, state, h.tasks]
  refine ⟨v.runningTasks, ws, h.queue, ?_, hinv.nodup, ?_, hinv.waiting_nodup, ?_, ?_, ?_, ?_⟩
  · rw [h.tasks]
    exact hinv.sorted
  · intro x
    rw [hstate]
    exact hinv.mem_running x
  · intro x
    rw [hstate]
    exact hinv.mem_waiting x
  · rw [h.count, hinv.count]
  · rw [h.total, hinv.total]
  · rw [h.current]
    exact hv.current

/-- Whatever happened to the task system, its tree holds exactly the tasks that can run, in the order of
their keys, its counters are right, and the current task is one of them.  No event that can happen next
ends in `abort` or follows a dangling pointer. -/
theorem runs_consistent [NeZero w] {es : List (SchedEvent (TaskPtr w))}
    {s : TaskSystem (TaskTree w) (TaskPtr w)} (h : init.runs es = some s) :
    (∃ ns ws, s.Consistent ns ws) ∧ ∀ e : SchedEvent (TaskPtr w), e.Possible s → (s.exec e).isSome := by
  obtain ⟨v, -, hr, hv⟩ := Refines.init.runs sound_init h
  refine ⟨hr.consistent hv, fun e hp => ?_⟩
  obtain ⟨s', -, hs', -⟩ := hr.exec (P := fun _ => True) hv ((hr.possible_iff e).mp hp)
    (by cases e <;> trivial)
  rw [hs']
  rfl

/-- Two tasks. -/
def taskA : TaskPtr 64 := ⟨64, by decide, by decide⟩

@[inherit_doc taskA] def taskB : TaskPtr 64 := ⟨128, by decide, by decide⟩

/-- The first task yields, and the second one waits and is woken up. -/
theorem runs_consistent_two : ∃ s : TaskSystem (TaskTree 64) (TaskPtr 64),
    (∃ ns ws, s.Consistent ns ws) ∧
      ∀ e : SchedEvent (TaskPtr 64), e.Possible s → (s.exec e).isSome := by
  have hrun : ((init : TaskSystem (TaskTree 64) (TaskPtr 64)).runs
      [.new taskA, .new taskB, .run taskA, .run taskB, .start [], .leave .switch [],
        .leave .waitio [[]], .wakeup taskB]).isSome := by
    decide +kernel
  obtain ⟨s, hs⟩ := Option.isSome_iff_exists.mp hrun
  exact ⟨s, runs_consistent hs⟩

/-- If no priority is 0 and never more than `m` tasks can run, every task that can run is the current
task by the time `16 * m` tasks have given the processor back. -/
theorem runs_served [NeZero w] {es₀ es : List (SchedEvent (TaskPtr w))}
    {s s' : TaskSystem (TaskTree w) (TaskPtr w)} {x : TaskPtr w} {m : ℕ}
    (h₀ : init.runs es₀ = some s) (hes : s.runs es = some s')
    (hlen : es₀.length + es.length < 2 ^ 59) (hok : ∀ e ∈ es₀ ++ es, e.Sets (· ≠ 0))
    (hcur : s.currentTask ≠ none) (hx : s.state x = some .running)
    (hm : ∀ es₁ u, es₁ <+: es → s.runs es₁ = some u → u.runningTaskCount ≤ m)
    (hleaves : 16 * m ≤ es.countP SchedEvent.isLeave) :
    ∃ es₁ u, es₁ <+: es ∧ s.runs es₁ = some u ∧ u.currentTask = some x :=
  served_of_leaves h₀ hes hlen hok hcur hx hm hleaves

/-- Two tasks that yield in turn. -/
theorem runs_served_two : ∃ es₁ s u, (init : TaskSystem (TaskTree 64) (TaskPtr 64)).runs
      [.new taskA, .new taskB, .run taskA, .run taskB, .start []] = some s ∧
    es₁ <+: List.replicate 32 (.leave .switch []) ∧ s.runs es₁ = some u ∧
      u.currentTask = some taskB := by
  -- The runs are computed with lists.
  have hstart : ∀ v ∈ (init : TaskSystem (List (TaskPtr 64)) (TaskPtr 64)).runs
      [.new taskA, .new taskB, .run taskA, .run taskB, .start []],
      (v.runs (List.replicate 32 (.leave .switch []))).isSome ∧ v.currentTask ≠ none ∧
      v.state taskB = some .running ∧ ∀ es₁ ∈ (List.replicate 32 (.leave .switch [])).inits,
        ∀ u ∈ v.runs es₁, u.runningTaskCount ≤ 2 := by
    decide +kernel
  obtain ⟨v, hv⟩ := Option.isSome_iff_exists.mp
    (show ((init : TaskSystem (List (TaskPtr 64)) (TaskPtr 64)).runs
      [.new taskA, .new taskB, .run taskA, .run taskB, .start []]).isSome by decide +kernel)
  obtain ⟨hsome, hcur, hstate, hcount⟩ := hstart v hv
  obtain ⟨s, hs, hr, hsound⟩ := Refines.init.runs_of_list (Q := TaskTree 64) sound_init hv
  obtain ⟨v', hv'⟩ := Option.isSome_iff_exists.mp hsome
  obtain ⟨s', hs', -⟩ := hr.runs_of_list hsound hv'
  obtain ⟨es₁, u, hpre, hu, hserved⟩ := runs_served (x := taskB) (m := 2) hs hs' (by decide)
    (by simp [SchedEvent.Sets]) (by rwa [hr.current]) (by rwa [state, hr.tasks])
    (fun es₁ u hpre hu => by
      obtain ⟨v₁, hv₁, hr₁, -⟩ := hr.runs hsound hu
      rw [hr₁.count]
      exact hcount es₁ ((List.mem_inits _ _).mpr hpre) v₁ hv₁)
    (by decide)
  exact ⟨es₁, s, u, hs, hpre, hu, hserved⟩

end TaskSystem

end HevTunnel
