import HevTunnel.SessionList
import HevTunnel.SessionSet

/-! # The sessions in memory and the set of sessions

`SessionHeap` has the sessions of a tunnel in memory, and `SessionSet` has them as a list of names.
`view` is the set that a heap stands for.  `exec_refines`: what the program does in memory at an event
is a sequence of steps of the set; a task that pauses or is woken up is not seen, and the stop event
tells the sessions to terminate one after the other.  So every run in memory is a run of the set
(`run_refines`). -/

namespace HevTunnel

variable {α : Type}

namespace SessionHeap

def told (h : SessionHeap α) (x : α) : Bool := (h.object x).any SessionObject.told

/-- The session of a node, whose task has been run. -/
def sessionNode (h : SessionHeap α) (name : α → ℕ) (x : α) : SessionNode :=
  ⟨name x, h.told x, .running⟩

/-- The set that the list of the nodes `xs` stands for. -/
def view (h : SessionHeap α) (name : α → ℕ) (next : ℕ) (xs : List α) : SessionSet :=
  ⟨xs.map (h.sessionNode name), h.count, next⟩

/-- The nodes have different names, which have been given before. -/
structure Named (name : α → ℕ) (next : ℕ) (xs : List α) : Prop where
  fresh : ∀ x ∈ xs, name x < next
  inj : ∀ x ∈ xs, ∀ y ∈ xs, name x = name y → x = y

theorem Named.subset {name : α → ℕ} {next : ℕ} {xs ys : List α} (h : Named name next xs)
    (hsub : ys ⊆ xs) : Named name next ys :=
  ⟨fun x hx => h.fresh x (hsub hx), fun x hx y hy => h.inj x (hsub hx) y (hsub hy)⟩

section view
variable {h h' : SessionHeap α} {name name' : α → ℕ} {next : ℕ} {xs : List α} {x : α} {max : Int}

theorem view_congr (hcount : h'.count = h.count) (hname : ∀ x ∈ xs, name' x = name x)
    (htold : ∀ x ∈ xs, h'.told x = h.told x) : h'.view name' next xs = h.view name next xs := by
  have hmap : xs.map (h'.sessionNode name') = xs.map (h.sessionNode name) := by
    apply List.map_congr_left
    intro x hx
    simp only [sessionNode, hname x hx, htold x hx]
  simp only [view, hmap, hcount]

theorem find_view (hn : Named name next xs) (hx : x ∈ xs) :
    (h.view name next xs).find (name x) = some (h.sessionNode name x) := by
  have hfind : xs.find? (fun y => name y = name x) = some x := by
    obtain ⟨y, hy⟩ : ∃ y, xs.find? (fun y => name y = name x) = some y := by
      rw [← Option.isSome_iff_exists, List.find?_isSome]
      exact ⟨x, hx, by simp⟩
    rw [hy, hn.inj y (List.mem_of_find?_eq_some hy) x hx (by simpa using List.find?_some hy)]
  have hcomp : (fun n : SessionNode => decide (n.id = name x)) ∘ h.sessionNode name =
      fun y => decide (name y = name x) := rfl
  simp only [SessionSet.find, view, List.find?_map, hcomp, hfind, Option.map_some]

/-- Below the limit an insertion tells nobody. -/
theorem insertSession_below (hlimit : max = 0 ∨ h.count + 1 < max) :
    (h.view name next xs).insertSession max =
      some ⟨xs.map (h.sessionNode name) ++ [⟨next, false, .stopped⟩], h.count + 1, next + 1⟩ :=
  if_pos hlimit

/-- At the limit it tells the first session. -/
theorem insertSession_above {y : α} {ys : List α} (hlimit : ¬ (max = 0 ∨ h.count + 1 < max)) :
    (h.view name next (y :: ys)).insertSession max =
      some ⟨⟨name y, true, .running⟩ :: (ys.map (h.sessionNode name) ++ [⟨next, false, .stopped⟩]),
        h.count + 1, next + 1⟩ :=
  (if_neg hlimit).trans rfl

variable [DecidableEq α]

theorem told_setObject (o : Option SessionObject) (y : α) :
    (h.setObject x o).told y = if y = x then o.any SessionObject.told else h.told y := by
  unfold told setObject
  by_cases hy : y = x
  · subst hy
    simp
  · simp [hy]

theorem erase_sessionNode (hn : Named name next xs) (hx : x ∈ xs) :
    (xs.map (h.sessionNode name)).erase (h.sessionNode name x) =
      (xs.erase x).map (h.sessionNode name) := by
  obtain ⟨a, b, hnot, rfl, herase⟩ := List.exists_erase_eq hx
  have hnode : h.sessionNode name x ∉ a.map (h.sessionNode name) := by
    intro hmem
    obtain ⟨y, hy, hyx⟩ := List.mem_map.mp hmem
    have hid : name y = name x := congrArg SessionNode.id hyx
    exact hnot (hn.inj y (by simp [hy]) x hx hid ▸ hy)
  rw [herase, List.map_append, List.map_cons, List.erase_append_right _ hnode, List.erase_cons_head,
    List.map_append]

/-! ### Steps of the set -/

theorem step_update (hn : Named name next xs) (hx : x ∈ xs) (hmax : max ≠ 0) :
    (h.view name next xs).step max (.update (name x)) =
      some ((h.updateSession max x).view name next (xs.erase x ++ [x])) := by
  simp only [SessionSet.step, find_view hn hx, Option.map_some, SessionSet.updateSession, if_neg hmax,
    SessionHeap.updateSession]
  simp only [view, erase_sessionNode hn hx, List.map_append]
  rfl

theorem step_delete (hn : Named name next xs) (hx : x ∈ xs) (hnodup : xs.Nodup) :
    (h.view name next xs).step max (.delete (name x)) =
      some ((h.sessionTaskEntry x).view name next (xs.erase x)) := by
  have hnode : (xs.erase x).map (h.sessionNode name) =
      (xs.erase x).map ((h.sessionTaskEntry x).sessionNode name) := by
    apply List.map_congr_left
    intro y hy
    have hyx : y ≠ x := (hnodup.mem_erase_iff.mp hy).1
    have htold : (h.sessionTaskEntry x).told y = h.told y := by
      rw [sessionTaskEntry, setStage, told_setObject, if_neg hyx]
      rfl
    simp only [sessionNode, htold]
  simp only [SessionSet.step, find_view hn hx, Option.map_some, SessionSet.deleteSession]
  simp only [view, erase_sessionNode hn hx, hnode]
  rfl

theorem told_terminate (ht : h.terminate x = some h') (y : α) :
    h'.told y = if y = x then true else h.told y := by
  obtain ⟨o, -, -, rfl⟩ := terminate_eq_some_iff.mp ht
  exact told_setObject ..

theorem step_terminate (hn : Named name next xs) (hx : x ∈ xs) (ht : h.terminate x = some h') :
    (h.view name next xs).step max (.terminate (name x)) = some (h'.view name next xs) := by
  have hnode : (xs.map (h.sessionNode name)).map
      (fun n => if n.id = name x then ⟨name x, true, .running⟩ else n) =
        xs.map (h'.sessionNode name) := by
    rw [List.map_map]
    apply List.map_congr_left
    intro y hy
    have hid : name y = name x ↔ y = x := ⟨hn.inj y hy x hx, fun hyx => by rw [hyx]⟩
    simp only [Function.comp_apply, sessionNode, hid, told_terminate ht y]
    split_ifs with hyx
    · rw [hyx]
    · rfl
  have hcount : h'.count = h.count := (keeps_terminate ht).count
  simp only [SessionSet.step, find_view hn hx, SessionNode.terminate, sessionNode, TaskState.wakeup,
    Option.bind_eq_bind, Option.bind_some, Option.pure_def, SessionSet.modify]
  simp only [view, hcount]
  rw [← hnode]

/-! ### A new session -/

theorem told_setTask (task : TaskState) (y : α) : (h.setTask x task).told y = h.told y := by
  rw [setTask, told_setObject]
  split_ifs with hy
  · subst hy
    unfold told
    cases h.object y <;> rfl
  · rfl

theorem told_newSession (y : α) : (h.newSession x).told y = if y = x then false else h.told y :=
  told_setObject ..

/-- The set with the new session, whose task is run then. -/
theorem accept_view (hn : Named name next xs) (hnot : x ∉ xs) (hx : h'.told x = false)
    (hins : (h.view name next xs).insertSession max =
      some ⟨xs.map (h'.sessionNode name) ++ [⟨next, false, .stopped⟩], h'.count, next + 1⟩) :
    (h.view name next xs).step max .accept =
      some (h'.view (Function.update name x next) (next + 1) (xs ++ [x])) := by
  have hold : ∀ y ∈ xs, h'.sessionNode (Function.update name x next) y = h'.sessionNode name y := by
    intro y hy
    simp only [sessionNode, Function.update_of_ne (ne_of_mem_of_not_mem hy hnot)]
  have hnew : h'.sessionNode (Function.update name x next) x = ⟨next, false, .running⟩ := by
    simp only [sessionNode, Function.update_self, hx]
  have hrun : (xs.map (h'.sessionNode name) ++ [(⟨next, false, .stopped⟩ : SessionNode)]).map
      (fun n : SessionNode => if n.id = next then { n with task := TaskState.running } else n) =
        xs.map (h'.sessionNode name) ++ [⟨next, false, .running⟩] := by
    rw [List.map_append, List.map_map]
    congr 1
    · apply List.map_congr_left
      intro y hy
      exact if_neg (hn.fresh y hy).ne
    · simp
  have hview : h'.view (Function.update name x next) (next + 1) (xs ++ [x]) =
      ⟨xs.map (h'.sessionNode name) ++ [⟨next, false, .running⟩], h'.count, next + 1⟩ := by
    simp only [view, List.map_append, List.map_cons, List.map_nil, hnew, List.map_congr_left hold]
  rw [hview, ← hrun]
  simp only [SessionSet.step, SessionSet.accept, hins, Option.bind_eq_bind, Option.bind_some,
    Option.pure_def, SessionSet.setTask, SessionSet.modify]
  rfl

theorem told_appended (y : α) : (h.appended x).told y = if y = x then false else h.told y :=
  told_newSession y

/-- Whom a new session tells to terminate: nobody, or the first session at the limit. -/
theorem openSession_told (hh : h.Holds xs) (hx : h.object x = none)
    (ho : h.openSession max x true = some h') :
    h'.count = h.count + 1 ∧ h'.told x = false ∧
      (((max = 0 ∨ h.count + 1 < max) ∧ ∀ y ∈ xs, h'.told y = h.told y) ∨
        (¬ (max = 0 ∨ h.count + 1 < max) ∧ ∃ y ys, xs = y :: ys ∧
          ∀ z ∈ xs, h'.told z = if z = y then true else h.told z)) := by
  have hnot : x ∉ xs := by simp [hh.live, Live, hx]
  have hold : ∀ y ∈ xs, (h.appended x).told y = h.told y := by
    intro y hy
    rw [told_appended, if_neg (ne_of_mem_of_not_mem hy hnot)]
  have hnew : (h.appended x).told x = false := (told_appended x).trans (if_pos rfl)
  simp only [SessionHeap.openSession, Bool.true_eq_false, if_false, Option.bind_eq_bind,
    Option.bind_eq_some_iff, Option.pure_def, Option.some.injEq] at ho
  obtain ⟨h₁, hins, rfl⟩ := ho
  simp only [told_setTask]
  rw [insertSession_new] at hins
  split_ifs at hins with hlimit
  · cases hins
    exact ⟨rfl, hnew, .inl ⟨hlimit, hold⟩⟩
  rw [(hh.appended hx).links.head] at hins
  cases xs with
  | nil =>
      -- the new session is the first, and its task cannot be woken up
      obtain ⟨o, ho, htask, -⟩ := terminate_eq_some_iff.mp hins
      have hobj : (h.appended x).object x = some ⟨false, .stopped, .running⟩ := Function.update_self ..
      rw [hobj] at ho
      cases ho
      exact absurd rfl htask
  | cons y ys =>
      have hyx : x ≠ y := fun hxy => hnot (by simp [hxy])
      refine ⟨(keeps_terminate hins).count, ?_, .inr ⟨hlimit, y, ys, rfl, ?_⟩⟩
      · rw [told_terminate hins, if_neg hyx]
        exact hnew
      · intro z hz
        rw [told_terminate hins, hold z hz]

/-- A new session in memory is a new session of the set. -/
theorem step_accept (hh : h.Holds xs) (hn : Named name next xs) (hx : h.object x = none)
    (ho : h.openSession max x true = some h') :
    (h.view name next xs).step max .accept =
      some (h'.view (Function.update name x next) (next + 1) (xs ++ [x])) := by
  have hnot : x ∉ xs := by simp [hh.live, Live, hx]
  obtain ⟨hcount, hnew, ⟨hlimit, hold⟩ | ⟨hlimit, y, ys, rfl, hold⟩⟩ := openSession_told hh hx ho
  · refine accept_view hn hnot hnew ?_
    have hmap : xs.map (h'.sessionNode name) = xs.map (h.sessionNode name) := by
      apply List.map_congr_left
      intro y hy
      simp only [sessionNode, hold y hy]
    rw [insertSession_below hlimit, hmap, hcount]
  · refine accept_view hn hnot hnew ?_
    have hfirst : h'.sessionNode name y = ⟨name y, true, .running⟩ := by
      simp only [sessionNode, hold y List.mem_cons_self, if_true]
    have hmap : ys.map (h'.sessionNode name) = ys.map (h.sessionNode name) := by
      apply List.map_congr_left
      intro z hz
      have hzy : z ≠ y := by
        rintro rfl
        exact (List.nodup_cons.mp hh.links.nodup).1 hz
      simp only [sessionNode, hold z (List.mem_cons_of_mem y hz), if_neg hzy]
    rw [insertSession_above hlimit, List.map_cons, hfirst, hmap, hcount]
    rfl

theorem Named.append (hn : Named name next xs) (hnot : x ∉ xs) :
    Named (Function.update name x next) (next + 1) (xs ++ [x]) := by
  have hold : ∀ y ∈ xs, Function.update name x next y = name y := fun y hy =>
    Function.update_of_ne (ne_of_mem_of_not_mem hy hnot) _ _
  have hnew : Function.update name x next x = next := Function.update_self ..
  have hcase : ∀ y ∈ xs ++ [x], y ∈ xs ∨ y = x := fun y hy => by simpa using hy
  constructor
  · intro y hy
    rcases hcase y hy with hy | rfl
    · rw [hold y hy]
      exact Nat.lt_succ_of_lt (hn.fresh y hy)
    · rw [hnew]
      exact Nat.lt_succ_self next
  · intro y hy z hz hyz
    rcases hcase y hy with hy' | rfl <;> rcases hcase z hz with hz' | rfl
    · rw [hold y hy', hold z hz'] at hyz
      exact hn.inj y hy' z hz' hyz
    · rw [hold y hy', hnew] at hyz
      exact absurd hyz (hn.fresh y hy').ne
    · rw [hold z hz', hnew] at hyz
      exact absurd hyz.symm (hn.fresh z hz').ne
    · rfl

/-! ### The stop event -/

/-- The stop event tells the sessions from a node on, one after the other. -/
theorem stopLoop_view {pre post : List α} {fuel : ℕ} {r : SessionHeap α × List α}
    (hn : Named name next xs) (hlinks : h.set.Links (pre ++ post)) (hpost : post ⊆ xs)
    (hr : stopLoop fuel h post.head? = some r) :
    runSteps (SessionSet.step max) (h.view name next xs) (post.map fun x => .terminate (name x)) =
      some (r.1.view name next xs) := by
  induction post generalizing h pre fuel r with
  | nil =>
      cases fuel with
      | zero => cases hr
      | succ fuel =>
          cases hr
          rfl
  | cons x post ih =>
      cases fuel with
      | zero => cases hr
      | succ fuel =>
          simp only [List.head?_cons, stopLoop, Option.bind_eq_bind, Option.bind_eq_some_iff,
            Option.pure_def, Option.some.injEq] at hr
          obtain ⟨h₁, hterm, r₁, hloop, rfl⟩ := hr
          have hset := set_terminate hterm
          rw [hset, hlinks.node pre x post rfl] at hloop
          have hlinks₁ : h₁.set.Links ((pre ++ [x]) ++ post) := by
            rw [hset, List.append_assoc]
            exact hlinks
          rw [List.map_cons, runSteps, step_terminate hn (hpost List.mem_cons_self) hterm,
            Option.bind_some]
          have hrest : runSteps (SessionSet.step max) (h₁.view name next xs)
              (post.map fun x => .terminate (name x)) = some (r₁.1.view name next xs) :=
            ih hlinks₁ (fun y hy => hpost (List.mem_cons_of_mem x hy)) hloop
          exact hrest

/-! ### One event -/

/-- The heap stands for a set that is reached from `s`. -/
def Follows (max : Int) (s : SessionSet) (h : SessionHeap α) : Prop :=
  ∃ xs name next steps, h.Holds xs ∧ Named name next xs ∧
    runSteps (SessionSet.step max) s steps = some (h.view name next xs)

/-- An event that changes nothing in the view. -/
theorem follows_keeps (hh : h.Holds xs) (hn : Named name next xs) (k : h.Keeps h')
    (htold : ∀ x ∈ xs, h'.told x = h.told x) : Follows max (h.view name next xs) h' :=
  ⟨xs, name, next, [], hh.keeps k, hn, by
    rw [runSteps, view_congr k.count (fun _ _ => rfl) htold]⟩

/-- An event that is one step of the set. -/
theorem follows_step {name' : α → ℕ} {next' : ℕ} {xs' : List α} {s : SessionSet} {step : SessionSet.Step}
    (hh : h'.Holds xs') (hn : Named name' next' xs')
    (hstep : s.step max step = some (h'.view name' next' xs')) : Follows max s h' := by
  refine ⟨xs', name', next', [step], hh, hn, ?_⟩
  rw [runSteps, hstep]
  rfl

theorem follows_handler {alloc : Option α} {task : Bool} (hh : h.Holds xs) (hs : h.AllStarted)
    (hn : Named name next xs) (hfree : ∀ x ∈ alloc, h.object x = none)
    (hcase : h' = h ∨ ∃ x ∈ alloc, h.openSession max x task = some h') :
    Follows max (h.view name next xs) h' := by
  rcases hcase with rfl | ⟨x, rfl, ho⟩
  · exact follows_keeps hh hn (.refl _) fun _ _ => rfl
  have hx : h.object x = none := hfree x rfl
  have hnot : x ∉ xs := by simp [hh.live, Live, hx]
  cases task with
  | false =>
      cases ho
      refine follows_keeps hh hn (keeps_refused hx) fun y hy => ?_
      have hyx := ne_of_mem_of_not_mem hy hnot
      rw [setStage, told_setObject, if_neg hyx, told_newSession, if_neg hyx]
  | true =>
      exact follows_step (hh.openSession hs hx ho).1 (hn.append hnot) (step_accept hh hn hx ho)

/-- What the program does in memory at an event, the set can do. -/
theorem exec_refines {fuel : ℕ} {e : SessionEvent α} (hh : h.Holds xs) (hs : h.AllStarted)
    (hn : Named name next xs) (hp : e.Possible h) (he : h.exec max fuel e = some h') :
    Follows max (h.view name next xs) h' := by
  cases e with
  | start =>
      cases he
      exact follows_keeps hh hn (keeps_run h true) fun _ _ => rfl
  | tcpAccept err alloc task =>
      obtain ⟨r, hr, rfl⟩ := Option.map_eq_some_iff.mp he
      exact follows_handler hh hs hn hp (tcpAcceptHandler_cases hr)
  | udpRecv dns alloc task => exact follows_handler hh hs hn hp (udpRecvHandler_cases he)
  | pause x p =>
      cases he
      exact follows_keeps hh hn (keeps_setTask (by cases p <;> simp [Pause.taskState]))
        fun y _ => told_setTask _ y
  | wakeup x =>
      cases he
      exact follows_keeps hh hn (keeps_setTask (by simp)) fun y _ => told_setTask _ y
  | terminate x =>
      have k := keeps_terminate he
      by_cases hx : x ∈ xs
      · exact follows_step (hh.keeps k) hn (step_terminate hn hx he)
      · -- a session that has left the list is not seen
        refine follows_keeps hh hn k fun y hy => ?_
        rw [told_terminate he, if_neg (ne_of_mem_of_not_mem hy hx)]
  | yielded x =>
      cases he
      have hx := (hh.live x).mpr hp
      by_cases hmax : max = 0
      · rw [updateSession, if_pos hmax]
        exact follows_keeps hh hn (.refl h) fun _ _ => rfl
      · refine follows_step (hh.updateSession hp hmax) (hn.subset ?_) (step_update hn hx hmax)
        exact List.append_subset.mpr ⟨List.erase_subset, by simpa using hx⟩
  | ended x =>
      cases he
      have hx := (hh.live x).mpr hp
      exact follows_step (hh.sessionTaskEntry hp) (hn.subset List.erase_subset)
        (step_delete hn hx hh.links.nodup)
  | freed x =>
      cases he
      have hx : x ∉ xs := by
        rw [hh.live, Live, hp]
        simp
      refine follows_keeps hh hn (keeps_freed hp) fun y hy => ?_
      rw [told_setObject, if_neg (ne_of_mem_of_not_mem hy hx)]
  | stop =>
      obtain ⟨r, hr, rfl⟩ := Option.map_eq_some_iff.mp he
      have k : h.Keeps r.1 := (keeps_run h false).trans (stopLoop_keeps hr)
      have hlinks : h.set.Links ([] ++ xs) := hh.links
      rw [eventTaskEntry, hh.links.head] at hr
      exact ⟨xs, name, next, _, hh.keeps k, hn,
        stopLoop_view (h := { h with run := false }) hn hlinks (List.Subset.refl xs) hr⟩

end view

end SessionHeap

/-- Every run in memory is a run of the set. -/
theorem TimedHeap.run_refines [DecidableEq α] {max : Int} {fuel : ℕ} {node : α → ListNode α}
    {es : List (SessionEvent α)} {t : TimedHeap α}
    (ht : runSteps (TimedHeap.step max fuel) (TimedHeap.init node) es = some t) :
    SessionHeap.Follows max SessionSet.init t.heap := by
  suffices h : (∃ xs, t.Inv max xs) ∧ SessionHeap.Follows max SessionSet.init t.heap from h.2
  refine runSteps_invariant
    (fun t : TimedHeap α => (∃ xs, t.Inv max xs) ∧ SessionHeap.Follows max SessionSet.init t.heap)
    ?_ ⟨⟨[], inv_init node⟩, ?_⟩ ht
  · rintro t e t' ⟨⟨xs, hinv⟩, xs₁, name, next, steps, hh, hn, hsteps⟩ hs
    refine ⟨hinv.step hs, ?_⟩
    unfold TimedHeap.step at hs
    split_ifs at hs with hp
    obtain ⟨h', he, rfl⟩ := Option.map_eq_some_iff.mp hs
    obtain ⟨xs', name', next', steps', hh', hn', hsteps'⟩ :=
      SessionHeap.exec_refines hh hinv.started hn hp he
    refine ⟨xs', name', next', steps ++ steps', hh', hn', ?_⟩
    rw [runSteps_append, hsteps, Option.bind_some]
    exact hsteps'
  · exact ⟨[], fun _ => 0, 0, [], SessionHeap.holds_init node, ⟨by simp, by simp⟩, rfl⟩

end HevTunnel
