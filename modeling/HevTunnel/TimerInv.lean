import HevTunnel.TimerSched

/-! # The sleepers and the clock

`TimerSystem.Inv` holds in every state of a run: the tree has the nodes of the tasks that sleep, in the
order of their times, and if the time of the first one was over when it was looked at last, its task can
run.  So no sleeper is forgotten, although only the first one is woken up: it is ready, and when it has
taken its node out it looks at the next. -/

namespace HevTunnel

open FairQueue

namespace TimerNode

variable {a b : TimerNode}

/-- What the nodes are ordered by. -/
def key (a : TimerNode) : ℤ ×ₗ ℤ ×ₗ ℕ := toLex (a.expire.sec, toLex (a.expire.nsec, a.addr))

theorem cmp_neg_iff : a.cmp b < 0 ↔ a.key < b.key := by
  simp only [cmp, Timespec.cmp, key, Prod.Lex.toLex_lt_toLex]
  split_ifs <;> omega

/-- The order of the nodes is that of their times. -/
theorem total_le_of_key_le (ha : a.expire.Valid) (hb : b.expire.Valid) (h : a.key ≤ b.key) :
    a.expire.total ≤ b.expire.total := by
  simp only [key, Prod.Lex.toLex_le_toLex, Timespec.Valid, Timespec.total] at *
  omega

end TimerNode

namespace TaskSystem

variable {Q α : Type} [DecidableEq α] [ReadyQueue Q α] [LawfulReadyQueue Q] {s : TaskSystem Q α}

/-- There are no more live tasks than the task system counts. -/
theorem Legal.length_le (h : Legal s) {xs : List α} (hnd : xs.Nodup) (hlive : ∀ x ∈ xs, s.Live x) :
    xs.length ≤ s.totalTaskCount := by
  obtain ⟨v, hr, hv⟩ := h
  obtain ⟨ws, hinv⟩ := hv.inv
  have hsub : xs ⊆ v.runningTasks ++ ws := by
    intro x hx
    have hx' : v.Live x := by
      have := hlive x hx
      rwa [Live, hr.tasks] at this
    rw [List.mem_append, hinv.mem_running, hinv.mem_waiting]
    exact live_iff.mp hx'
  rw [hr.total, hinv.total, ← List.length_append]
  exact (hnd.subperm hsub).length_le

end TaskSystem

namespace TimerSystem

variable {Q T α : Type} [DecidableEq α] [ReadyQueue Q α] [ReadyQueue T α]

/-- The clock after `now`. -/
def Later (now curr : Timespec) : Prop := curr.Normal ∧ now.total ≤ curr.total

instance (now curr : Timespec) : Decidable (Later now curr) := inferInstanceAs (Decidable (_ ∧ _))

/-- The keys of the nodes. -/
def nodeKey (nodes : α → Option TimerNode) (x : α) : ℤ ×ₗ ℤ ×ₗ ℕ :=
  (nodes x).elim (toLex (0, toLex (0, 0))) TimerNode.key

omit [ReadyQueue Q α] [ReadyQueue T α] in
theorem nodeKey_update_of_ne {x c : α} (h : x ≠ c) (nodes : α → Option TimerNode)
    (node : Option TimerNode) : nodeKey (Function.update nodes c node) x = nodeKey nodes x := by
  rw [nodeKey, Function.update_of_ne h, nodeKey]

omit [ReadyQueue Q α] [ReadyQueue T α] in
theorem nodeKey_update_self (c : α) (nodes : α → Option TimerNode) (node : TimerNode) :
    nodeKey (Function.update nodes c (some node)) c = node.key := by
  rw [nodeKey, Function.update_self, Option.elim_some]

omit [ReadyQueue Q α] [ReadyQueue T α] in
/-- A node is the new one or an old one. -/
theorem of_update_eq_some {x c : α} {nodes : α → Option TimerNode} {node n : TimerNode}
    (h : Function.update nodes c (some node) x = some n) : x = c ∧ n = node ∨ x ≠ c ∧ nodes x = some n := by
  by_cases hxc : x = c
  · rw [hxc, Function.update_self, Option.some_inj] at h
    exact .inl ⟨hxc, h.symm⟩
  · rw [Function.update_of_ne hxc] at h
    exact .inr ⟨hxc, h⟩

omit [ReadyQueue Q α] [ReadyQueue T α] in
theorem of_update_none_eq_some {x c : α} {nodes : α → Option TimerNode} {n : TimerNode}
    (h : Function.update nodes c none x = some n) : nodes x = some n := by
  by_cases hxc : x = c
  · simp [hxc] at h
  · rwa [Function.update_of_ne hxc] at h

variable [LawfulReadyQueue Q] [LawfulReadyQueue T]

/-- The tree has the nodes of the tasks `xs`, which sleep. -/
structure Sleepers (m : TimerSystem Q T α) (xs : List α) : Prop where
  sched : m.sched.Legal
  tree : LawfulReadyQueue.Lists (fun x => (m.nodes x).isSome) m.sortTree xs
  sorted : Sorted (nodeKey m.nodes) xs
  nodup : xs.Nodup
  mem_iff : ∀ x, x ∈ xs ↔ m.nodes x ≠ none
  live : ∀ x ∈ xs, m.sched.Live x
  valid : ∀ x, ∀ node ∈ m.nodes x, node.expire.Valid
  normal : m.checked.Normal
  clock : Later m.checked m.now

/-- The first sleeper is ready if its time was over when it was looked at last. -/
structure Inv (m : TimerSystem Q T α) (xs : List α) : Prop extends Sleepers m xs where
  ready : ∀ x ∈ xs.head?, ∀ node ∈ m.nodes x, node.expire.total ≤ m.checked.total →
    m.sched.state x = some .running

variable {m m' : TimerSystem Q T α} {xs : List α} {ticks : List (Tick α)} {c : α} {curr : Timespec}

namespace Sleepers

theorem first (h : Sleepers m xs) : ReadyQueue.first m.sortTree = xs.head? :=
  LawfulReadyQueue.lists_first h.tree

theorem rooted (h : Sleepers m xs) : m.Rooted := by
  intro x hx
  rw [h.first] at hx
  exact (h.mem_iff x).mp (List.mem_of_head? hx)

/-- The timer wakes up the first sleeper if its time is over. -/
theorem mem_wokenAt (h : Sleepers m xs) {x : α} {node : TimerNode} {tick : Tick α} (hx : xs.head? = some x)
    (hnode : m.nodes x = some node) (htick : tick.curr.Normal)
    (hle : node.expire.total ≤ tick.curr.total) : x ∈ m.wokenAt tick := by
  have hcmp : ¬ tick.curr.cmp node.expire < 0 := by
    rw [Timespec.cmp_neg_iff htick (h.valid x node hnode)]
    omega
  simp only [wokenAt, h.first, hx, List.mem_append, List.mem_filter]
  exact .inr ⟨by simp, by simpa [hnode] using hcmp⟩

/-- Nobody else is woken up by the timer. -/
theorem of_mem_wokenAt (h : Sleepers m xs) {x : α} {tick : Tick α} (hx : x ∈ m.wokenAt tick) :
    x ∈ tick.woken ∨ xs.head? = some x ∧ ∃ node, m.nodes x = some node ∧
      ¬ tick.curr.cmp node.expire < 0 := by
  simp only [wokenAt, h.first, List.mem_append, List.mem_filter] at hx
  refine hx.imp_right fun ⟨hmem, hany⟩ => ⟨by simpa using hmem, ?_⟩
  simpa [Option.any_eq_true] using hany

/-- The tree does not depend on the scheduler, as long as the sleepers are live. -/
theorem look (h : Sleepers m xs) (hcurr : Later m.now curr) {s : TaskSystem Q α} (hs : s.Legal)
    (hlive : ∀ x ∈ xs, s.Live x) : Sleepers (m.look curr s) xs where
  sched := hs
  tree := h.tree
  sorted := h.sorted
  nodup := h.nodup
  mem_iff := h.mem_iff
  live := hlive
  valid := h.valid
  normal := hcurr.1
  clock := ⟨hcurr.1, le_rfl⟩

/-- The current task takes its node out of the tree. -/
theorem disarm (h : Sleepers m xs) (hcurr : Later m.now curr) (hc : m.nodes c ≠ none) :
    ∃ tree, ReadyQueue.erase (fun x => (m.nodes x).isSome) (m.sched.totalTaskCount + 1) m.sortTree c =
        some tree ∧
      Sleepers { m with sortTree := tree, now := curr, nodes := Function.update m.nodes c none }
        (xs.erase c) := by
  have hmem := (h.mem_iff c).mpr hc
  have hlen := h.sched.length_le h.nodup h.live
  obtain ⟨tree, htree, hlists⟩ := LawfulReadyQueue.lists_erase h.tree hmem (Nat.lt_succ_of_le hlen)
  have hne : ∀ x ∈ xs.erase c, x ≠ c := fun x hx => (h.nodup.mem_erase_iff.mp hx).1
  refine ⟨tree, htree, h.sched, ?_, ?_, h.nodup.erase c, fun x => ?_,
    fun x hx => h.live x (List.mem_of_mem_erase hx),
    fun x node hx => h.valid x node (of_update_none_eq_some hx),
    h.normal, hcurr.1, h.clock.2.trans hcurr.2⟩
  · refine LawfulReadyQueue.lists_frame hlists fun x hx => ?_
    simp only [Function.update_of_ne (hne x hx)]
    exact Option.isSome_iff_ne_none.mpr ((h.mem_iff x).mp (List.mem_of_mem_erase hx))
  · refine Sorted.congr (h.sorted.sublist List.erase_sublist) fun x hx => ?_
    exact nodeKey_update_of_ne (hne x hx) ..
  · rw [h.nodup.mem_erase_iff, h.mem_iff]
    by_cases hxc : x = c
    · simp [hxc]
    · simp [hxc]

/-- The loop of `hev_task_timer_wait` puts the node where it belongs. -/
theorem insert (h : Sleepers m xs) (hnone : m.nodes c = none) (node : TimerNode) :
    ∃ tree, ReadyQueue.insert (fun x => (Function.update m.nodes c (some node) x).isSome)
        (fun this => (Function.update m.nodes c (some node) this).map fun n => decide (node.cmp n < 0))
        (m.sched.totalTaskCount + 1) m.sortTree c = some tree ∧
      LawfulReadyQueue.Lists (fun x => (Function.update m.nodes c (some node) x).isSome) tree
        (enqueue (nodeKey (Function.update m.nodes c (some node))) c xs) := by
  have hnot : c ∉ xs := fun hin => (h.mem_iff c).mp hin hnone
  have hne : ∀ x ∈ xs, x ≠ c := fun x hx => ne_of_mem_of_not_mem hx hnot
  have hlen := h.sched.length_le h.nodup h.live
  have hsorted : Sorted (nodeKey (Function.update m.nodes c (some node))) xs :=
    h.sorted.congr fun x hx => nodeKey_update_of_ne (hne x hx) ..
  have hsome : ∀ x ∈ xs, ∃ n, Function.update m.nodes c (some node) x = some n := fun x hx => by
    rw [Function.update_of_ne (hne x hx)]
    exact Option.ne_none_iff_exists'.mp ((h.mem_iff x).mp hx)
  refine LawfulReadyQueue.lists_insert (LawfulReadyQueue.lists_frame h.tree fun x hx => ?_)
    (fun x hx => ?_) (hsorted.imp fun hyz hlt => hlt.trans_le hyz) (by simp) hnot (Nat.lt_succ_of_le hlen)
  · exact Option.isSome_iff_exists.mpr (hsome x hx)
  · obtain ⟨n, hn⟩ := hsome x hx
    have hkey : nodeKey (Function.update m.nodes c (some node)) x = n.key := by
      rw [nodeKey, hn, Option.elim_some]
    rw [nodeKey_update_self, hkey, hn, Option.map_some]
    simp only [TimerNode.cmp_neg_iff]

/-- One more sleeper. -/
theorem armed (h : Sleepers m xs) (hlive : m.sched.Live c) (hnone : m.nodes c = none)
    (hcurr : Later m.now curr) {node : TimerNode} (hvalid : node.expire.Valid) {tree : T}
    (htree : LawfulReadyQueue.Lists (fun x => (Function.update m.nodes c (some node) x).isSome) tree
      (enqueue (nodeKey (Function.update m.nodes c (some node))) c xs)) :
    Sleepers { m with sortTree := tree, now := curr, nodes := Function.update m.nodes c (some node) }
      (enqueue (nodeKey (Function.update m.nodes c (some node))) c xs) := by
  have hnot : c ∉ xs := fun hin => (h.mem_iff c).mp hin hnone
  have hne : ∀ x ∈ xs, x ≠ c := fun x hx => ne_of_mem_of_not_mem hx hnot
  have hsorted : Sorted (nodeKey (Function.update m.nodes c (some node))) xs :=
    h.sorted.congr fun x hx => nodeKey_update_of_ne (hne x hx) ..
  refine ⟨h.sched, htree, hsorted.enqueue c, nodup_enqueue hnot h.nodup, fun x => ?_, fun x hx => ?_,
    fun x n hn => ?_, h.normal, hcurr.1, h.clock.2.trans hcurr.2⟩
  · rw [mem_enqueue, h.mem_iff]
    by_cases hxc : x = c
    · simp [hxc]
    · simp [hxc]
  · rcases mem_enqueue.mp hx with rfl | hx
    · exact hlive
    · exact h.live x hx
  · rcases of_update_eq_some hn with ⟨-, rfl⟩ | ⟨-, hn⟩
    · exact hvalid
    · exact h.valid x n hn

/-- A look at the first node. -/
theorem wakeup (h : Sleepers m xs) (hcurr : Later m.now curr) :
    ∃ s, m.wakeup curr = some (m.look curr s) ∧ Inv (m.look curr s) xs ∧
      (s = m.sched ∨ ∃ x, m.sched.Live x ∧ m.sched.wakeupTask x = some s) := by
  rw [wakeup_eq h.rooted]
  cases hx : xs.head? with
  | none =>
      have hnil : m.wokenAt ⟨[], curr⟩ = [] := by simp [wokenAt, h.first, hx]
      rw [hnil]
      exact ⟨_, rfl, ⟨h.look hcurr h.sched h.live, by simp [hx]⟩, .inl rfl⟩
  | some x =>
      have hmem : x ∈ xs := List.mem_of_head? hx
      obtain ⟨node, hnode⟩ := Option.ne_none_iff_exists'.mp ((h.mem_iff x).mp hmem)
      have hcmp := Timespec.cmp_neg_iff hcurr.1 (h.valid x node hnode)
      by_cases hdue : curr.cmp node.expire < 0
      · have hnil : m.wokenAt ⟨[], curr⟩ = [] := by simp [wokenAt, h.first, hx, hnode, hdue]
        rw [hnil]
        refine ⟨_, rfl, ⟨h.look hcurr h.sched h.live, fun y hy node' hnode' hle => ?_⟩, .inl rfl⟩
        obtain rfl := Option.some_inj.mp (hx.symm.trans hy)
        obtain rfl := Option.some_inj.mp (hnode.symm.trans hnode')
        exact absurd (hcmp.mp hdue) (not_lt.mpr hle)
      · have hone : m.wokenAt ⟨[], curr⟩ = [x] := by simp [wokenAt, h.first, hx, hnode, hdue]
        obtain ⟨s, hs, hlegal, hlive, -, hwoken, -⟩ := h.sched.exec (e := .wakeup x) (h.live x hmem)
        have hpoll : m.sched.ioPoll [x] = some s := by
          rw [TaskSystem.ioPoll, List.foldlM_cons]
          exact (congrArg (· >>= _) hs).trans rfl
        rw [hone, hpoll]
        refine ⟨s, rfl, ⟨h.look hcurr hlegal fun y hy => hlive y (h.live y hy) (by simp),
          fun y hy _ _ _ => ?_⟩, .inr ⟨x, h.live x hmem, hs⟩⟩
        obtain rfl := Option.some_inj.mp (hx.symm.trans hy)
        exact hwoken x rfl

/-- The time of the last look does not go back. -/
theorem checked_le (h : Sleepers m xs) (hpolled : Polled m ticks m')
    (hclock : ∀ tick ∈ ticks, Later m.now tick.curr) : m.checked.total ≤ m'.checked.total := by
  rcases hpolled with ⟨-, hchecked⟩ | ⟨tick, htick, -, hchecked, -⟩
  · rw [hchecked]
  · rw [hchecked]
    exact h.clock.2.trans (hclock tick htick).2

end Sleepers

omit [DecidableEq α] [ReadyQueue Q α] [LawfulReadyQueue Q] [LawfulReadyQueue T] in
/-- The clock does not go back. -/
theorem Polled.now_le (hpolled : Polled m ticks m')
    (hclock : ∀ tick ∈ ticks, Later m.now tick.curr) : m.now.total ≤ m'.now.total := by
  rcases hpolled with ⟨hnow, -⟩ | ⟨tick, htick, hnow, -, -⟩
  · rw [hnow]
  · rw [hnow]
    exact (hclock tick htick).2

namespace Inv

/-- After the polls of the scheduler.  If there was none, the first sleeper is as it was. -/
theorem polled (h : Sleepers m xs) (hpolled : Polled m ticks m') (htree : m'.sortTree = m.sortTree)
    (hnodes : m'.nodes = m.nodes) (hs : m'.sched.Legal) (hlive : ∀ x ∈ xs, m'.sched.Live x)
    (hclock : ∀ tick ∈ ticks, Later m.now tick.curr)
    (hready : ∀ x ∈ xs.head?, ∀ node ∈ m.nodes x, node.expire.total ≤ m.checked.total →
      m'.sched.state x = some .running) : Inv m' xs := by
  obtain ⟨s, tree, nodes, now, checked⟩ := m'
  subst htree hnodes
  rcases hpolled with ⟨hnow, hchecked⟩ | ⟨tick, htick, hnow, hchecked, hwoken⟩
  · subst hnow hchecked
    exact ⟨⟨hs, h.tree, h.sorted, h.nodup, h.mem_iff, hlive, h.valid, h.normal, h.clock⟩, hready⟩
  · subst hnow hchecked
    have hcurr := hclock tick htick
    exact ⟨h.look hcurr hs hlive, fun x hx node hnode hle =>
      hwoken x (h.mem_wokenAt hx hnode hcurr.1 hle)⟩

/-- If the time of a sleeper was over at the last look, the first one is ready, and its time is not
later. -/
theorem first_ready (h : Inv m xs) {x : α} {node : TimerNode} (hnode : m.nodes x = some node)
    (hle : node.expire.total ≤ m.checked.total) :
    ∃ y node', xs.head? = some y ∧ m.nodes y = some node' ∧ node'.expire.total ≤ node.expire.total ∧
      m.sched.state y = some .running := by
  have hmem : x ∈ xs := (h.mem_iff x).mpr (by simp [hnode])
  obtain ⟨y, ys, rfl⟩ := List.exists_cons_of_ne_nil (List.ne_nil_of_mem hmem)
  obtain ⟨node', hnode'⟩ := Option.ne_none_iff_exists'.mp ((h.mem_iff y).mp List.mem_cons_self)
  have hle' : node'.expire.total ≤ node.expire.total := by
    rcases List.mem_cons.mp hmem with rfl | hmem
    · rw [Option.some_inj.mp (hnode.symm.trans hnode')]
    · have hkey := (List.pairwise_cons.mp h.sorted).1 x hmem
      rw [nodeKey, hnode', nodeKey, hnode] at hkey
      exact TimerNode.total_le_of_key_le (h.valid y node' hnode') (h.valid x node hnode) hkey
  exact ⟨y, node', rfl, hnode', hle', h.ready y rfl node' hnode' (hle'.trans hle)⟩

/-- The current task puts its node into the tree. -/
theorem arm (h : Inv m xs) (hc : m.sched.currentTask = some c) (hnone : m.nodes c = none)
    (hcurr : Later m.now curr) {ms : ℕ} (hpos : ms ≠ 0) (addr : ℕ) :
    ∃ m₁ node, m.arm ms addr curr = some m₁ ∧ Inv m₁ (enqueue (nodeKey m₁.nodes) c xs) ∧
      m₁.sched = m.sched ∧ m₁.checked = m.checked ∧ m₁.nodes = Function.update m.nodes c (some node) ∧
      m.checked.total < node.expire.total ∧ m₁.now = curr ∧ node.expire = curr.getExpire ms := by
  obtain ⟨tree, htree, hlists⟩ := h.insert hnone ⟨curr.getExpire ms, addr, false⟩
  let node : TimerNode := ⟨curr.getExpire ms, addr, decide (ReadyQueue.first tree = some c)⟩
  have hexpire : node.expire.total = curr.total + ms * 1000000 := curr.getExpire_total ms
  have hclock := h.clock.2.trans hcurr.2
  -- the key does not depend on `leftmost`
  have hsome : (fun x => (Function.update m.nodes c (some node) x).isSome) = fun x =>
      (Function.update m.nodes c (some ⟨curr.getExpire ms, addr, false⟩) x).isSome := by
    funext x
    by_cases hxc : x = c
    · simp [hxc]
    · simp [hxc]
  have hkeys : nodeKey (Function.update m.nodes c (some node)) =
      nodeKey (Function.update m.nodes c (some ⟨curr.getExpire ms, addr, false⟩)) := by
    funext x
    by_cases hxc : x = c
    · rw [hxc, nodeKey_update_self, nodeKey_update_self]
      rfl
    · rw [nodeKey_update_of_ne hxc, nodeKey_update_of_ne hxc]
  rw [← hsome, ← hkeys] at hlists
  obtain ⟨t, ht, hst⟩ := Option.map_eq_some_iff.mp (h.sched.current hc)
  have hlive : m.sched.Live c := ⟨t, ht, by simp [hst]⟩
  have harmed := h.armed hlive hnone hcurr (hcurr.1.getExpire ms) hlists
  refine ⟨_, node, ?_, ⟨harmed, fun x hx n hn hle => ?_⟩, rfl, rfl, rfl, by omega, rfl, rfl⟩
  · rw [TimerSystem.arm, hc, Option.bind_some]
    exact (congrArg (Option.map _) htree).trans rfl
  · rcases of_update_eq_some hn with ⟨-, rfl⟩ | ⟨hxc, hn⟩
    · -- its time is not over yet
      exact absurd hle (by simp only [not_le]; omega)
    · rcases head?_enqueue (nodeKey (Function.update m.nodes c (some node))) c xs with hhead | hhead
      · exact absurd (Option.some_inj.mp (hx.symm.trans hhead)) hxc
      · exact h.ready x (hhead.symm.trans hx) n hn hle

/-- The current task takes its node out, and looks at the next if it was the first. -/
theorem resume (h : Inv m xs) (hc : m.sched.currentTask = some c) (hnode : m.nodes c ≠ none)
    (hcurr : Later m.now curr) :
    ∃ node m', m.nodes c = some node ∧ m.resume curr = some (curr.getTime node.expire, m') ∧
      Inv m' (xs.erase c) ∧ m'.nodes = Function.update m.nodes c none ∧ m'.now = curr ∧
      m.checked.total ≤ m'.checked.total ∧
      (m'.sched = m.sched ∨ ∃ x, m.sched.Live x ∧ m.sched.wakeupTask x = some m'.sched) := by
  obtain ⟨node, hn⟩ := Option.ne_none_iff_exists'.mp hnode
  obtain ⟨tree, htree, h₁⟩ := h.disarm hcurr hnode
  rw [TimerSystem.resume, hc, Option.bind_some, hn, Option.bind_some, htree, Option.bind_some]
  split_ifs with hleft
  · obtain ⟨s, hm', h', hs⟩ := h₁.wakeup ⟨hcurr.1, le_rfl⟩
    exact ⟨node, _, rfl, (congrArg (Option.map _) hm').trans rfl, h', rfl, rfl, h.clock.2.trans hcurr.2, hs⟩
  · refine ⟨node, _, rfl, rfl, ⟨h₁, fun x hx node' hnode' hle => ?_⟩, rfl, rfl, le_rfl, .inl rfl⟩
    have hfirst : xs.head? ≠ some c := by
      rw [← h.first]
      simp only [Bool.or_eq_true, decide_eq_true_eq, not_or] at hleft
      exact hleft.2
    rw [head?_erase hfirst] at hx
    have hxc : x ≠ c := by
      rintro rfl
      exact hfirst hx
    exact h.ready x hx node' (by simpa [hxc] using hnode') hle

end Inv

end TimerSystem

end HevTunnel
