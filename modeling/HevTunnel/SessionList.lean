import HevTunnel.Recency
import HevTunnel.SessionHeap

/-! # The list of sessions

A node that is deleted without being in the list takes the whole list with it, so everything rests on
when the sessions of a tunnel call `hev_list_add_tail` and `hev_list_del`.

* `Holds` says that all calls so far have had their preconditions, and that the list holds the live
  sessions.  `exec_moved` is what an event does to it.
* `TimedHeap` adds the times at which the sessions have been created and active.  `run_holds` is the
  result for every run. -/

namespace HevTunnel

variable {α : Type}

/-- The session that an event creates, unless it fails. -/
def SessionEvent.creates : SessionEvent α → Option α
  | .tcpAccept _ alloc _ => alloc
  | .udpRecv _ alloc _ => alloc
  | _ => none

/-- The session that is active in an event: a new one, or one whose splicer yields. -/
def SessionEvent.activates : SessionEvent α → Option α
  | .yielded x => some x
  | e => e.creates

/-- The session that gets a new place in the order. -/
def SessionEvent.marks (max : Int) (e : SessionEvent α) : Option α :=
  if max = 0 then e.creates else e.activates

namespace SessionHeap

/-! ### What the list holds -/

/-- All calls on the list so far have had their preconditions, and the list is the sequence that they
make, that of the live sessions. -/
structure Holds [DecidableEq α] (h : SessionHeap α) (xs : List α) : Prop where
  calls : runSteps ListCall.apply [] h.calls = some xs
  links : h.set.Links xs
  live : ∀ x, x ∈ xs ↔ h.Live x
  count : h.count = xs.length

/-- The tasks of the live sessions have been run. -/
def AllStarted (h : SessionHeap α) : Prop := ∀ x, h.Live x → h.Started x

/-- A change that does not concern the list. -/
structure Keeps (h h' : SessionHeap α) : Prop where
  calls : h'.calls = h.calls
  count : h'.count = h.count
  links : ∀ xs, (∀ x ∈ xs, h.Live x) → h.set.Links xs → h'.set.Links xs
  live : ∀ x, h'.Live x ↔ h.Live x
  started : ∀ x, h.Live x → h.Started x → h'.Started x

theorem Keeps.refl (h : SessionHeap α) : h.Keeps h :=
  ⟨rfl, rfl, fun _ _ hlinks => hlinks, fun _ => Iff.rfl, fun _ _ hx => hx⟩

theorem keeps_run (h : SessionHeap α) (run : Bool) : h.Keeps { h with run := run } :=
  ⟨rfl, rfl, fun _ _ hlinks => hlinks, fun _ => Iff.rfl, fun _ _ hx => hx⟩

theorem Keeps.trans {h h₁ h' : SessionHeap α} (k : h.Keeps h₁) (k' : h₁.Keeps h') : h.Keeps h' := by
  refine ⟨k'.calls.trans k.calls, k'.count.trans k.count, ?_, fun x => (k'.live x).trans (k.live x),
    fun x hlive hx => k'.started x ((k.live x).mpr hlive) (k.started x hlive hx)⟩
  intro xs hlive hlinks
  exact k'.links xs (fun x hx => (k.live x).mpr (hlive x hx)) (k.links xs hlive hlinks)

theorem AllStarted.keeps {h h' : SessionHeap α} (hs : h.AllStarted) (k : h.Keeps h') :
    h'.AllStarted :=
  fun x hx => k.started x ((k.live x).mp hx) (hs x ((k.live x).mp hx))

section lemmas
variable [DecidableEq α] {h h' : SessionHeap α} {xs ys : List α} {x y : α} {max : Int}

theorem holds_init (node : α → ListNode α) : (init node).Holds [] :=
  ⟨rfl, .empty node, by simp [init, Live], rfl⟩

omit [DecidableEq α] in
theorem allStarted_init (node : α → ListNode α) : (init node).AllStarted := by
  simp [AllStarted, init, Live]

theorem Holds.keeps (hh : h.Holds xs) (k : h.Keeps h') : h'.Holds xs :=
  ⟨k.calls ▸ hh.calls, k.links xs (fun x hx => (hh.live x).mp hx) hh.links,
    fun x => (hh.live x).trans (k.live x).symm, k.count.trans hh.count⟩

/-! ### Changes of a session -/

theorem live_setObject (o : Option SessionObject) :
    (h.setObject x o).Live y ↔
      if y = x then o.map SessionObject.stage = some .running else h.Live y := by
  unfold Live setObject
  by_cases hy : y = x
  · subst hy
    simp
  · simp [hy]

theorem started_setObject (o : Option SessionObject) :
    (h.setObject x o).Started y ↔
      if y = x then ∃ o', o = some o' ∧ o'.task ≠ .stopped else h.Started y := by
  unfold Started setObject
  by_cases hy : y = x
  · subst hy
    simp
  · simp [hy]

/-- A session that keeps its stage, and its task running. -/
theorem keeps_setObject {o : Option SessionObject}
    (hlive : o.map SessionObject.stage = some .running ↔ h.Live x)
    (hstarted : h.Live x → h.Started x → ∃ o', o = some o' ∧ o'.task ≠ .stopped) :
    h.Keeps (h.setObject x o) := by
  refine ⟨rfl, rfl, fun _ _ hlinks => hlinks, ?_, ?_⟩
  · intro y
    rw [live_setObject]
    split_ifs with hy
    · rw [hy]
      exact hlive
    · rfl
  · intro y hl hy
    rw [started_setObject]
    split_ifs with hyx
    · exact hstarted (hyx ▸ hl) (hyx ▸ hy)
    · exact hy

theorem keeps_setTask {task : TaskState} (htask : task ≠ .stopped) : h.Keeps (h.setTask x task) := by
  apply keeps_setObject
  · unfold Live
    cases h.object x <;> rfl
  · rintro - ⟨o, ho, -⟩
    exact ⟨{ o with task := task }, by rw [ho]; rfl, htask⟩

theorem terminate_eq_some_iff : h.terminate x = some h' ↔ ∃ o, h.object x = some o ∧
    o.task ≠ .stopped ∧ h' = h.setObject x (some ⟨true, .running, o.stage⟩) := by
  unfold terminate
  cases ho : h.object x with
  | none => simp
  | some o =>
      obtain ⟨told, task, stage⟩ := o
      cases task <;> simp [TaskState.wakeup, eq_comm]

theorem keeps_terminate (hs : h.terminate x = some h') : h.Keeps h' := by
  obtain ⟨o, ho, -, rfl⟩ := terminate_eq_some_iff.mp hs
  apply keeps_setObject
  · rw [Live, ho]
    rfl
  · exact fun _ _ => ⟨_, rfl, by simp⟩

theorem set_terminate (hs : h.terminate x = some h') : h'.set = h.set := by
  obtain ⟨o, -, -, rfl⟩ := terminate_eq_some_iff.mp hs
  rfl

theorem Started.terminate (hx : h.Started x) : ∃ h', h.terminate x = some h' := by
  obtain ⟨o, ho, htask⟩ := hx
  exact ⟨_, terminate_eq_some_iff.mpr ⟨o, ho, htask, rfl⟩⟩

/-! ### Calls on the list -/

/-- The record of the calls with one more that has its precondition. -/
theorem runSteps_call {c : ListCall α} (hcalls : runSteps ListCall.apply [] h.calls = some xs)
    (hc : c.apply xs = some ys) :
    runSteps ListCall.apply [] (h.call c).calls = some ys := by
  show runSteps _ _ (h.calls ++ [c]) = _
  rw [runSteps_append, hcalls, Option.bind_some, runSteps, hc]
  rfl

/-- The session leaves the list. -/
theorem Holds.sessionTaskEntry (hh : h.Holds xs) (hx : h.Live x) :
    (h.sessionTaskEntry x).Holds (xs.erase x) := by
  have hmem := (hh.live x).mpr hx
  have hc : (ListCall.del x).apply xs = some (xs.erase x) := if_pos hmem
  refine ⟨runSteps_call hh.calls hc, hh.links.call hc, ?_, ?_⟩
  · intro y
    rw [SessionHeap.sessionTaskEntry, setStage, live_setObject, hh.links.nodup.mem_erase_iff, hh.live]
    split_ifs with hy
    · simp [hy]
    · exact and_iff_right hy
  · show h.count - 1 = _
    rw [hh.count, List.length_erase_of_mem hmem]
    have := List.length_pos_of_mem hmem
    omega

/-- The session goes to the end of the list, if there is a limit. -/
theorem Holds.updateSession (hh : h.Holds xs) (hx : h.Live x) (hmax : max ≠ 0) :
    (h.updateSession max x).Holds (xs.erase x ++ [x]) := by
  have hmem := (hh.live x).mpr hx
  have hnot : x ∉ xs.erase x := hh.links.nodup.not_mem_erase
  have hdel : (ListCall.del x).apply xs = some (xs.erase x) := if_pos hmem
  have hadd : (ListCall.addTail x).apply (xs.erase x) = some (xs.erase x ++ [x]) := if_neg hnot
  have hperm : (xs.erase x ++ [x]).Perm xs :=
    List.perm_append_comm.trans (List.perm_cons_erase hmem).symm
  rw [SessionHeap.updateSession, if_neg hmax]
  refine ⟨runSteps_call (runSteps_call hh.calls hdel) hadd, (hh.links.call hdel).call hadd, ?_, ?_⟩
  · intro y
    rw [hperm.mem_iff]
    exact hh.live y
  · rw [hperm.length_eq]
    exact hh.count

theorem allStarted_sessionTaskEntry (hs : h.AllStarted) : (h.sessionTaskEntry x).AllStarted := by
  intro y hy
  rw [sessionTaskEntry, setStage, live_setObject] at hy
  rw [sessionTaskEntry, setStage, started_setObject]
  split_ifs at hy ⊢ with hyx
  · cases ho : (h.deleteSession x).object x with
    | none => simp [ho] at hy
    | some o => simp [ho] at hy
  · exact hs y hy

/-! ### New sessions -/

/-- Memory that is not in use becomes a session that has no place in the list. -/
theorem keeps_refused (hx : h.object x = none) :
    h.Keeps ((h.newSession x).setStage x .leaving) := by
  have hdead : ¬ h.Live x := by simp [Live, hx]
  refine ⟨rfl, rfl, ?_, ?_, ?_⟩
  · intro xs hlive hlinks
    exact hlinks.write_other (fun hmem => hdead (hlive x hmem)) _
  · intro y
    rw [setStage, live_setObject]
    split_ifs with hy
    · subst hy
      simp [newSession, setObject, hdead]
    · rw [newSession, live_setObject, if_neg hy]
      rfl
  · intro y hl hy
    have hyx : y ≠ x := by
      rintro rfl
      exact hdead hl
    rw [setStage, started_setObject, if_neg hyx, newSession, started_setObject, if_neg hyx]
    exact hy

/-- The heap with a new session in the list, before its task is run. -/
def appended (h : SessionHeap α) (x : α) : SessionHeap α :=
  { (h.newSession x).call (.addTail x) with count := h.count + 1 }

theorem insertSession_new (max : Int) (h : SessionHeap α) (x : α) :
    (h.newSession x).insertSession max x =
      if max = 0 ∨ h.count + 1 < max then some (h.appended x)
      else (h.appended x).set.head.bind (h.appended x).terminate :=
  rfl

theorem Holds.appended (hh : h.Holds xs) (hx : h.object x = none) :
    (h.appended x).Holds (xs ++ [x]) := by
  have hnot : x ∉ xs := by simp [hh.live, Live, hx]
  have hadd : (ListCall.addTail x).apply xs = some (xs ++ [x]) := if_neg hnot
  refine ⟨runSteps_call (h := h.newSession x) hh.calls hadd, (hh.links.write_other hnot _).call hadd, ?_,
    ?_⟩
  · intro y
    show _ ↔ (h.newSession x).Live y
    rw [newSession, live_setObject, List.mem_append, List.mem_singleton, hh.live]
    split_ifs with hy
    · simp [hy]
    · simp only [hy, or_false]
      rfl
  · show h.count + 1 = _
    rw [hh.count, List.length_append]
    rfl

theorem started_appended (hy : h.Started y) (hyx : y ≠ x) : (h.appended x).Started y := by
  show (h.newSession x).Started y
  rw [newSession, started_setObject, if_neg hyx]
  exact hy

/-- The program goes on, unless the limit is reached by the first session of all: it would have to
wake up its own task, which does not run yet. -/
theorem Holds.openSession_ne_none (hh : h.Holds xs) (hs : h.AllStarted) (hx : h.object x = none)
    (hroom : max = 0 ∨ 1 < max ∨ xs ≠ []) (task : Bool) : h.openSession max x task ≠ none := by
  suffices hins : ∃ h', (h.newSession x).insertSession max x = some h' by
    obtain ⟨h', hins⟩ := hins
    cases task <;> simp [SessionHeap.openSession, hins]
  have hcount : h.count = xs.length := hh.count
  rw [insertSession_new]
  split_ifs with hlimit
  · exact ⟨_, rfl⟩
  obtain ⟨y, ys, rfl⟩ : ∃ y ys, xs = y :: ys := by
    refine List.exists_cons_of_ne_nil ?_
    rintro rfl
    simp only [List.length_nil] at hcount
    simp only [ne_eq, not_true_eq_false, or_false] at hroom
    omega
  -- the first session has been there before
  have hlive : h.Live y := (hh.live y).mp List.mem_cons_self
  have hyx : y ≠ x := by
    rintro rfl
    simp [Live, hx] at hlive
  rw [(hh.appended hx).links.head]
  exact (started_appended (hs y hlive) hyx).terminate

/-- Behind the insertion the first session may be told to terminate. -/
theorem insertSession_keeps (hins : (h.newSession x).insertSession max x = some h') :
    (h.appended x).Keeps h' := by
  rw [insertSession_new] at hins
  split_ifs at hins
  · cases hins
    exact .refl _
  · obtain ⟨y, -, hterm⟩ := Option.bind_eq_some_iff.mp hins
    exact keeps_terminate hterm

/-- A new session that does not make the program abort is the last of the list, and its task is
run. -/
theorem Holds.openSession (hh : h.Holds xs) (hs : h.AllStarted) (hx : h.object x = none)
    (ho : h.openSession max x true = some h') : h'.Holds (xs ++ [x]) ∧ h'.AllStarted := by
  simp only [SessionHeap.openSession, Bool.true_eq_false, if_false, Option.bind_eq_bind,
    Option.bind_eq_some_iff, Option.pure_def, Option.some.injEq] at ho
  obtain ⟨h₁, hins, rfl⟩ := ho
  have k := insertSession_keeps hins
  have hrun : h₁.Keeps (h₁.setTask x .running) := keeps_setTask (by simp)
  have hlist := ((hh.appended hx).keeps k).keeps hrun
  refine ⟨hlist, ?_⟩
  intro y hy
  by_cases hyx : y = x
  · subst hyx
    rw [setTask, started_setObject, if_pos rfl]
    cases ho : h₁.object y with
    | none => simp [Live, setTask, setObject, ho] at hy
    | some o => exact ⟨_, rfl, by simp⟩
  · have hlive : h.Live y := by
      rw [← hlist.live, List.mem_append, List.mem_singleton] at hy
      exact (hh.live y).mp (hy.resolve_right hyx)
    have hlive₁ : h₁.Live y := (hrun.live y).mp hy
    apply hrun.started y hlive₁
    exact k.started y ((k.live y).mp hlive₁) (started_appended (hs y hlive) hyx)

/-! ### The stop event -/

theorem stopLoop_keeps {fuel : ℕ} {p : Option α} {r : SessionHeap α × List α}
    (hr : stopLoop fuel h p = some r) : h.Keeps r.1 := by
  induction fuel generalizing h p r with
  | zero => cases hr
  | succ fuel ih =>
      cases p with
      | none =>
          cases hr
          exact .refl _
      | some x =>
          simp only [stopLoop, Option.bind_eq_bind, Option.bind_eq_some_iff, Option.pure_def,
            Option.some.injEq] at hr
          obtain ⟨h₁, hterm, r₁, hloop, rfl⟩ := hr
          have hrest : h₁.Keeps r₁.1 := ih hloop
          exact (keeps_terminate hterm).trans hrest

/-- From a node of the list on, the loop visits the rest of the list. -/
theorem stopLoop_visits {pre post : List α} (hlinks : h.set.Links (pre ++ post))
    (hlive : ∀ x ∈ post, h.Live x) (hs : h.AllStarted) {fuel : ℕ} (hfuel : post.length < fuel) :
    ∃ h', stopLoop fuel h post.head? = some (h', post) := by
  induction post generalizing h pre fuel with
  | nil =>
      obtain ⟨fuel, rfl⟩ := Nat.exists_eq_add_of_lt hfuel
      exact ⟨h, rfl⟩
  | cons x post ih =>
      obtain ⟨fuel, rfl⟩ : ∃ n, fuel = n + 1 := ⟨fuel - 1, by omega⟩
      obtain ⟨h₁, hterm⟩ := (hs x (hlive x List.mem_cons_self)).terminate
      have k := keeps_terminate hterm
      have hset := set_terminate hterm
      have hnext : (h₁.set.node x).next = post.head? := by
        rw [hset, hlinks.node pre x post rfl]
      have hlinks₁ : h₁.set.Links ((pre ++ [x]) ++ post) := by
        rw [hset, List.append_assoc]
        exact hlinks
      obtain ⟨h', hloop⟩ := ih hlinks₁
        (fun y hy => (k.live y).mpr (hlive y (List.mem_cons_of_mem x hy))) (hs.keeps k)
        (Nat.lt_of_succ_lt_succ hfuel)
      refine ⟨h', ?_⟩
      rw [List.head?_cons, stopLoop, hterm]
      simp only [Option.bind_eq_bind, Option.bind_some, hnext, hloop, Option.pure_def]

/-- The stop event visits the live sessions, each of them once. -/
theorem Holds.eventTaskEntry (hh : h.Holds xs) (hs : h.AllStarted) {fuel : ℕ}
    (hfuel : xs.length < fuel) : ∃ h', h.eventTaskEntry fuel = some (h', xs) := by
  have hlinks : h.set.Links ([] ++ xs) := hh.links
  rw [SessionHeap.eventTaskEntry, hh.links.head]
  exact stopLoop_visits (h := { h with run := false }) hlinks (fun x hx => (hh.live x).mp hx) hs hfuel

/-! ### One event -/

/-- What a handler leaves behind: nothing has happened, or a session has been opened. -/
theorem moved_handler {alloc : Option α} {task : Bool} (hh : h.Holds xs) (hs : h.AllStarted)
    (hfree : ∀ x ∈ alloc, h.object x = none)
    (hcase : h' = h ∨ ∃ x ∈ alloc, h.openSession max x task = some h') :
    ∃ xs', h'.Holds xs' ∧ h'.AllStarted ∧ Moved alloc xs xs' := by
  have hnot : ∀ x ∈ alloc, x ∉ xs := by
    intro x hx
    simp [hh.live, Live, hfree x hx]
  rcases hcase with rfl | ⟨x, rfl, ho⟩
  · exact ⟨xs, hh, hs, Moved.refl hnot⟩
  · have hx : h.object x = none := hfree x rfl
    cases task with
    | false =>
        have k : h.Keeps h' := by
          cases ho
          exact keeps_refused hx
        exact ⟨xs, hh.keeps k, hs.keeps k, Moved.refl hnot⟩
    | true =>
        obtain ⟨hh', hs'⟩ := hh.openSession hs hx ho
        exact ⟨xs ++ [x], hh', hs', .append (.refl xs) (hnot x rfl)⟩

theorem tcpAcceptHandler_cases {err : Int} {alloc : Option α} {task : Bool}
    {r : Int × SessionHeap α} (hr : h.tcpAcceptHandler max err alloc task = some r) :
    r.2 = h ∨ ∃ x ∈ alloc, h.openSession max x task = some r.2 := by
  unfold tcpAcceptHandler at hr
  by_cases herr : err ≠ 0
  · rw [if_pos herr] at hr
    cases hr
    exact .inl rfl
  by_cases hrun : h.run = false
  · rw [if_neg herr, if_pos hrun] at hr
    cases hr
    exact .inl rfl
  rw [if_neg herr, if_neg hrun] at hr
  cases alloc with
  | none =>
      cases hr
      exact .inl rfl
  | some x =>
      obtain ⟨h', ho, rfl⟩ := Option.map_eq_some_iff.mp hr
      exact .inr ⟨x, rfl, ho⟩

theorem udpRecvHandler_cases {dns : Bool} {alloc : Option α} {task : Bool}
    (hr : h.udpRecvHandler max dns alloc task = some h') :
    h' = h ∨ ∃ x ∈ alloc, h.openSession max x task = some h' := by
  unfold udpRecvHandler at hr
  split_ifs at hr
  · cases hr
    exact .inl rfl
  · cases hr
    exact .inl rfl
  · cases alloc with
    | none =>
        cases hr
        exact .inl rfl
    | some x => exact .inr ⟨x, rfl, hr⟩

theorem tcpAcceptHandler_ne_none (err : Int) {alloc : Option α} {task : Bool}
    (hopen : ∀ x ∈ alloc, h.openSession max x task ≠ none) :
    h.tcpAcceptHandler max err alloc task ≠ none := by
  unfold tcpAcceptHandler
  cases alloc with
  | none => split_ifs <;> simp
  | some x => split_ifs <;> simp [hopen x rfl]

theorem udpRecvHandler_ne_none (dns : Bool) {alloc : Option α} {task : Bool}
    (hopen : ∀ x ∈ alloc, h.openSession max x task ≠ none) :
    h.udpRecvHandler max dns alloc task ≠ none := by
  unfold udpRecvHandler
  cases alloc with
  | none => split_ifs <;> simp
  | some x => split_ifs <;> simp [hopen x rfl]

theorem keeps_freed (hx : (h.object x).map SessionObject.stage = some .leaving) :
    h.Keeps (h.setObject x none) := by
  have hdead : ¬ h.Live x := by simp [Live, hx]
  exact keeps_setObject (by simp [hdead]) (fun hl => absurd hl hdead)

/-- A change that does not concern the list, in an event that marks no session. -/
theorem moved_keeps {marked : Option α} (hh : h.Holds xs) (hs : h.AllStarted) (k : h.Keeps h')
    (hm : marked = none) : ∃ xs', h'.Holds xs' ∧ h'.AllStarted ∧ Moved marked xs xs' := by
  subst hm
  exact ⟨xs, hh.keeps k, hs.keeps k, Moved.refl (by simp)⟩

/-- Every event leaves a list of the live sessions. -/
theorem exec_moved {fuel : ℕ} {e : SessionEvent α} (hh : h.Holds xs) (hs : h.AllStarted)
    (hp : e.Possible h) (he : h.exec max fuel e = some h') :
    ∃ xs', h'.Holds xs' ∧ h'.AllStarted ∧ Moved (e.marks max) xs xs' := by
  cases e with
  | start =>
      cases he
      exact moved_keeps hh hs (keeps_run h true) (ite_self _)
  | tcpAccept err alloc task =>
      obtain ⟨r, hr, rfl⟩ := Option.map_eq_some_iff.mp he
      have hm : (SessionEvent.tcpAccept err alloc task).marks max = alloc := ite_self _
      rw [hm]
      exact moved_handler hh hs hp (tcpAcceptHandler_cases hr)
  | udpRecv dns alloc task =>
      have hm : (SessionEvent.udpRecv dns alloc task).marks max = alloc := ite_self _
      rw [hm]
      exact moved_handler hh hs hp (udpRecvHandler_cases he)
  | pause x p =>
      cases he
      exact moved_keeps hh hs (keeps_setTask (by cases p <;> simp [Pause.taskState])) (ite_self _)
  | wakeup x =>
      cases he
      exact moved_keeps hh hs (keeps_setTask (by simp)) (ite_self _)
  | terminate x => exact moved_keeps hh hs (keeps_terminate he) (ite_self _)
  | yielded x =>
      cases he
      by_cases hmax : max = 0
      · have hm : (SessionEvent.yielded x).marks max = none := if_pos hmax
        rw [hm, updateSession, if_pos hmax]
        exact moved_keeps hh hs (.refl h) rfl
      · have hm : (SessionEvent.yielded x).marks max = some x := if_neg hmax
        have hs' : (h.updateSession max x).AllStarted := by
          rw [updateSession, if_neg hmax]
          exact hs
        rw [hm]
        exact ⟨_, hh.updateSession hp hmax, hs',
          .append List.erase_sublist hh.links.nodup.not_mem_erase⟩
  | ended x =>
      cases he
      have hm : (SessionEvent.ended x).marks max = none := ite_self _
      rw [hm]
      exact ⟨_, hh.sessionTaskEntry hp, allStarted_sessionTaskEntry hs, xs.erase x,
        List.erase_sublist, by simp, .inl rfl⟩
  | freed x =>
      cases he
      exact moved_keeps hh hs (keeps_freed hp) (ite_self _)
  | stop =>
      obtain ⟨r, hr, rfl⟩ := Option.map_eq_some_iff.mp he
      have k : h.Keeps r.1 := (keeps_run h false).trans (stopLoop_keeps hr)
      exact moved_keeps hh hs k (ite_self _)

end lemmas

end SessionHeap

/-! ### Time -/

/-- The sessions with the times at which they have been created and were last active. -/
structure TimedHeap (α : Type) where
  heap : SessionHeap α
  created : α → ℕ
  active : α → ℕ
  now : ℕ

namespace TimedHeap
variable [DecidableEq α]

def init (node : α → ListNode α) : TimedHeap α := ⟨.init node, fun _ => 0, fun _ => 0, 0⟩

/-- An event, with the times that it sets. -/
def step (max : Int) (fuel : ℕ) (t : TimedHeap α) (e : SessionEvent α) : Option (TimedHeap α) :=
  if e.Possible t.heap then
    (t.heap.exec max fuel e).map fun h =>
      ⟨h, touch t.created t.now e.creates, touch t.active t.now e.activates, t.now + 1⟩
  else none

/-- The times that order the list: those of the last activity if there is a limit, and otherwise
those of the creation. -/
def times (max : Int) (t : TimedHeap α) : α → ℕ := if max = 0 then t.created else t.active

/-- The list holds the live sessions in their order. -/
structure Inv (max : Int) (t : TimedHeap α) (xs : List α) : Prop where
  holds : t.heap.Holds xs
  started : t.heap.AllStarted
  order : Recency (t.times max) t.now xs

variable {max : Int} {t t' : TimedHeap α} {xs : List α}

theorem inv_init (node : α → ListNode α) : (init node).Inv max [] :=
  ⟨SessionHeap.holds_init node, SessionHeap.allStarted_init node, ⟨by simp, .nil⟩⟩

theorem Inv.step {fuel : ℕ} {e : SessionEvent α} (h : t.Inv max xs)
    (hs : t.step max fuel e = some t') : ∃ xs', t'.Inv max xs' := by
  unfold TimedHeap.step at hs
  split_ifs at hs with hp
  obtain ⟨h', he, rfl⟩ := Option.map_eq_some_iff.mp hs
  obtain ⟨xs', hh, hstarted, hf⟩ := SessionHeap.exec_moved h.holds h.started hp he
  refine ⟨xs', hh, hstarted, ?_⟩
  have htimes := h.order.moved hf
  unfold times SessionEvent.marks at *
  split_ifs at htimes ⊢
  · exact htimes
  · exact htimes

/-- Every possible event leads on, unless it is the first session of all and reaches the limit. -/
theorem Inv.step_ne_none {fuel : ℕ} {e : SessionEvent α} (h : t.Inv max xs) (hp : e.Possible t.heap)
    (hroom : max = 0 ∨ 1 < max ∨ xs ≠ []) (hfuel : xs.length < fuel) : t.step max fuel e ≠ none := by
  rw [TimedHeap.step, if_pos hp, ne_eq, Option.map_eq_none_iff]
  have hopen : ∀ x task, t.heap.object x = none → t.heap.openSession max x task ≠ none :=
    fun x task hx => h.holds.openSession_ne_none h.started hx hroom task
  cases e with
  | tcpAccept err alloc task =>
      have := SessionHeap.tcpAcceptHandler_ne_none err fun x hx => hopen x task (hp x hx)
      simpa [SessionHeap.exec] using this
  | udpRecv dns alloc task =>
      exact SessionHeap.udpRecvHandler_ne_none dns fun x hx => hopen x task (hp x hx)
  | terminate x =>
      obtain ⟨h', hterm⟩ := SessionHeap.Started.terminate hp
      simp [SessionHeap.exec, hterm]
  | stop =>
      obtain ⟨h', hstop⟩ := h.holds.eventTaskEntry h.started hfuel
      simp [SessionHeap.exec, hstop]
  | start => simp [SessionHeap.exec]
  | pause x p => simp [SessionHeap.exec]
  | wakeup x => simp [SessionHeap.exec]
  | yielded x => simp [SessionHeap.exec]
  | ended x => simp [SessionHeap.exec]
  | freed x => simp [SessionHeap.exec]

/-- For every run of a tunnel.  Appending a node that is not in a list and removing one that is are
append and removal on the sequence of its nodes, and these are the only calls that the tunnel makes.
The list holds the live sessions, each of them once, in the order of their times; the counter is their
number; and the stop event visits all of them once.  Every possible event leads on, unless the first
session of all reaches the limit. -/
theorem run_holds {node : α → ListNode α} {fuel : ℕ} {es : List (SessionEvent α)}
    (ht : runSteps (step max fuel) (init node) es = some t) :
    (∀ (l : LinkedList α) (xs : List α) (x : α), l.Links xs → x ∉ xs →
      (l.addTail x).Links (xs ++ [x])) ∧
    (∀ (l : LinkedList α) (xs : List α) (x : α), l.Links xs → x ∈ xs →
      (l.del x).Links (xs.erase x)) ∧
    ∃ xs, t.heap.Holds xs ∧ xs.Pairwise (fun x y => t.times max x < t.times max y) ∧
      ∀ fuel', xs.length < fuel' → (∃ h', t.heap.eventTaskEntry fuel' = some (h', xs)) ∧
        ∀ e, SessionEvent.Possible t.heap e → max = 0 ∨ 1 < max ∨ xs ≠ [] →
          t.step max fuel' e ≠ none := by
  refine ⟨fun l xs x h hx => h.addTail hx, fun l xs x h hx => h.erase hx, ?_⟩
  obtain ⟨xs, h⟩ : ∃ xs, t.Inv max xs :=
    runSteps_invariant (fun s : TimedHeap α => ∃ xs, s.Inv max xs) (fun ⟨_, h⟩ hs => h.step hs)
      ⟨[], inv_init node⟩ ht
  refine ⟨xs, h.holds, h.order.order, fun fuel' hfuel => ⟨?_, ?_⟩⟩
  · exact h.holds.eventTaskEntry h.started hfuel
  · exact fun e hp hroom => h.step_ne_none hp hroom hfuel

/-- Two sessions under a limit of three, the first of which is active again: it is now the last. -/
theorem run_holds_two : ∃ t : TimedHeap ℕ,
    runSteps (step 3 5) (init fun _ => ⟨none, none⟩)
      [.start, .tcpAccept 0 (some 8) true, .udpRecv false (some 9) true, .yielded 8] = some t ∧
    t.heap.Holds [9, 8] ∧ t.times 3 9 < t.times 3 8 ∧
      ∃ h', t.heap.eventTaskEntry 3 = some (h', [9, 8]) := by
  have ht : runSteps (step 3 5) (init fun _ => ⟨none, none⟩)
    [.start, .tcpAccept 0 (some 8) true, .udpRecv false (some 9) true, .yielded 8] = some _ := rfl
  obtain ⟨-, -, xs, hh, horder, hstop⟩ := run_holds ht
  obtain rfl : [9, 8] = xs := Option.some.inj hh.calls
  exact ⟨_, ht, hh, (List.pairwise_cons.mp horder).1 8 (by simp), (hstop 3 (by decide)).1⟩

end TimedHeap

end HevTunnel
