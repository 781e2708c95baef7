import HevTunnel.SessionTask

/-! # The set of sessions and its limit

`hev-socks5-tunnel.c` keeps its sessions in a list.  A new session goes to the end of it, and so does
a session that is active.  With a limit for the number of sessions, `hev_socks5_tunnel_insert_session`
tells the first session of the list to terminate; the session stays in the list until its task
ends.

`live` counts the sessions that have not been told to terminate.  The first session may be one that
has been told already, and then a new session takes no other one's place.
`everyState_live_iff`: the limit holds all along a run exactly if that never happens while as many
sessions are live as there may be. -/

namespace HevTunnel

/-- `HevSocks5SessionData`, with the state of its task. -/
structure SessionNode where
  id : ℕ
  /-- `hev_socks5_session_terminate` has been called. -/
  told : Bool
  task : TaskState
deriving DecidableEq, Repr

/-- `hev_socks5_session_terminate`. -/
def SessionNode.terminate (n : SessionNode) : Option SessionNode := do
  let task ← n.task.wakeup
  pure { n with told := true, task := task }

theorem SessionNode.terminate_eq_none_iff (n : SessionNode) :
    n.terminate = none ↔ n.task = .stopped := by
  obtain ⟨id, told, task⟩ := n
  cases task <;> simp [terminate, TaskState.wakeup]

/-- The sessions of a tunnel. -/
structure SessionSet where
  /-- `session_set`. -/
  list : List SessionNode
  /-- `session_count`. -/
  count : Int
  /-- The name of the next session. -/
  next : ℕ
deriving DecidableEq, Repr

namespace SessionSet

def init : SessionSet := ⟨[], 0, 0⟩

def find (s : SessionSet) (id : ℕ) : Option SessionNode := s.list.find? (fun n => n.id = id)

def modify (s : SessionSet) (id : ℕ) (f : SessionNode → SessionNode) : SessionSet :=
  { s with list := s.list.map (fun n => if n.id = id then f n else n) }

/-- The task of a session runs or waits. -/
def setTask (s : SessionSet) (id : ℕ) (task : TaskState) : SessionSet :=
  s.modify id (fun n => { n with task := task })

/-- `hev_socks5_tunnel_insert_session` of a new session, whose task does not run yet. -/
def insertSession (max : Int) (s : SessionSet) : Option SessionSet :=
  let s : SessionSet := ⟨s.list ++ [⟨s.next, false, .stopped⟩], s.count + 1, s.next + 1⟩
  if max = 0 ∨ s.count < max then some s
  else
    match s.list with
    | [] => none
    | n :: rest => do
        let n ← n.terminate
        pure { s with list := n :: rest }

/-- `tcp_accept_handler` and `udp_recv_handler` from the insertion on: the task is run. -/
def accept (max : Int) (s : SessionSet) : Option SessionSet := do
  let s' ← s.insertSession max
  pure (s'.setTask s.next .running)

/-- `hev_socks5_tunnel_update_session`. -/
def updateSession (max : Int) (s : SessionSet) (n : SessionNode) : SessionSet :=
  if max = 0 then s else { s with list := s.list.erase n ++ [n] }

/-- `hev_socks5_tunnel_delete_session`. -/
def deleteSession (s : SessionSet) (n : SessionNode) : SessionSet :=
  { s with list := s.list.erase n, count := s.count - 1 }

/-- What can happen to the set. -/
inductive Step where
  /-- A session is created. -/
  | accept
  /-- A session is active. -/
  | update (id : ℕ)
  /-- A session is told to terminate for another reason. -/
  | terminate (id : ℕ)
  /-- The task of a session waits. -/
  | wait (id : ℕ)
  /-- A session ends. -/
  | delete (id : ℕ)
deriving DecidableEq, Repr

def step (max : Int) (s : SessionSet) : Step → Option SessionSet
  | .accept => s.accept max
  | .update id => (s.find id).map (s.updateSession max)
  | .terminate id => do
      let n ← s.find id
      let n' ← n.terminate
      pure (s.modify id (fun _ => n'))
  | .wait id => (s.find id).map (fun _ => s.setTask id .waiting)
  | .delete id => (s.find id).map s.deleteSession

/-- The number of sessions that have not been told to terminate. -/
def live (s : SessionSet) : ℕ := s.list.countP (fun n => !n.told)

/-- A session is created while as many sessions as there may be are live, and the first session has
been told to terminate already. -/
def Wasted (max : Int) (s : SessionSet) : Step → Prop
  | .accept => (s.live : Int) = max ∧ ∃ n, s.list.head? = some n ∧ n.told = true
  | _ => False

/-! ### The number of live sessions -/

section live
variable {s s' : SessionSet}

theorem live_le_length (s : SessionSet) : s.live ≤ s.list.length := List.countP_le_length

theorem mem_of_find {id : ℕ} {n : SessionNode} (h : s.find id = some n) : n ∈ s.list :=
  List.mem_of_find?_eq_some h

/-- Changing a session so that it does not become live adds no live session. -/
theorem live_modify_le (id : ℕ) {f : SessionNode → SessionNode}
    (hf : ∀ n ∈ s.list, n.id = id → (f n).told = false → n.told = false) :
    (s.modify id f).live ≤ s.live := by
  unfold live modify
  rw [List.countP_map]
  apply List.countP_mono_left
  intro n hn hlive
  simp only [Function.comp_apply, Bool.not_eq_true'] at hlive ⊢
  split_ifs at hlive with hid
  · exact hf n hn hid hlive
  · exact hlive

theorem live_setTask (id : ℕ) (task : TaskState) : (s.setTask id task).live = s.live := by
  unfold live setTask modify
  rw [List.countP_map]
  apply List.countP_congr
  intro n _
  simp only [Function.comp_apply]
  split_ifs <;> rfl

theorem length_modify (id : ℕ) (f : SessionNode → SessionNode) :
    (s.modify id f).list.length = s.list.length := List.length_map _

theorem updateSession_perm (max : Int) {n : SessionNode} (hn : n ∈ s.list) :
    (s.updateSession max n).list.Perm s.list := by
  unfold updateSession
  split_ifs
  · exact List.Perm.refl _
  · exact List.perm_append_comm.trans (List.perm_cons_erase hn).symm

end live

/-! ### One step -/

/-- The counter is right, and the limit holds. -/
structure Inv (max : Int) (s : SessionSet) : Prop where
  count : s.count = s.list.length
  limit : (s.live : Int) ≤ max

section step
variable {max : Int} {s s' : SessionSet} {x : Step}

/-- What the creation of a session can do: add one that is live, and below the limit leave the
others alone, or tell the first one to terminate.  The new session is not the first one, since its
task cannot be woken up yet. -/
theorem accept_cases (hmax : 0 < max) (h : s.accept max = some s') :
    s'.count = s.count + 1 ∧ s'.list.length = s.list.length + 1 ∧
    ((s.count + 1 < max ∧ s'.live = s.live + 1) ∨
     (max ≤ s.count + 1 ∧ ∃ n, s.list.head? = some n ∧
        s'.live + (if n.told then 0 else 1) = s.live + 1)) := by
  simp only [accept, Option.bind_eq_bind, Option.bind_eq_some_iff, Option.pure_def,
    Option.some.injEq] at h
  obtain ⟨s₁, hins, rfl⟩ := h
  rw [live_setTask, setTask, length_modify]
  show s₁.count = _ ∧ _
  simp only [insertSession] at hins
  split_ifs at hins with hlt
  · cases hins
    refine ⟨rfl, by simp, .inl ⟨hlt.resolve_left (by omega), ?_⟩⟩
    simp [live]
  · rw [not_or, not_lt] at hlt
    cases hlist : s.list with
    | nil =>
        rw [hlist] at hins
        cases hins
    | cons n rest =>
        simp only [hlist, List.cons_append, SessionNode.terminate, Option.bind_eq_bind,
          Option.bind_eq_some_iff, Option.pure_def, Option.some.injEq] at hins
        obtain ⟨n', ⟨task, -, rfl⟩, rfl⟩ := hins
        refine ⟨rfl, by simp, .inr ⟨hlt.2, n, rfl, ?_⟩⟩
        simp only [live, hlist, List.countP_cons, List.countP_append, List.countP_nil]
        cases n.told <;> simp

theorem Inv.step (hmax : 0 < max) (hs : s.Inv max) (h : s.step max x = some s')
    (hx : ¬ s.Wasted max x) : s'.Inv max := by
  obtain ⟨hcount, hlimit⟩ := hs
  cases x with
  | accept =>
      obtain ⟨hcount', hlen, ⟨hlt, hlive⟩ | ⟨hge, n, hhead, hlive⟩⟩ := accept_cases hmax h
      · have := s.live_le_length
        exact ⟨by omega, by omega⟩
      · refine ⟨by omega, ?_⟩
        -- the place is the one of the first session, unless there is room
        by_cases hfull : (s.live : Int) = max
        · have htold : n.told = false := by
            by_contra hn
            exact hx ⟨hfull, n, hhead, by simpa using hn⟩
          rw [htold] at hlive
          simp only [Bool.false_eq_true, if_false] at hlive
          omega
        · split_ifs at hlive <;> omega
  | update id =>
      simp only [SessionSet.step, Option.map_eq_some_iff] at h
      obtain ⟨n, hn, rfl⟩ := h
      have hperm := updateSession_perm max (mem_of_find hn)
      refine ⟨?_, ?_⟩
      · rw [hperm.length_eq]
        unfold updateSession
        split_ifs <;> exact hcount
      · rw [live, hperm.countP_eq]
        exact hlimit
  | terminate id =>
      simp only [SessionSet.step, SessionNode.terminate, Option.bind_eq_bind,
        Option.bind_eq_some_iff, Option.pure_def, Option.some.injEq] at h
      obtain ⟨n, -, _, ⟨task, -, rfl⟩, rfl⟩ := h
      have hle := live_modify_le (s := s) id (f := fun _ => { n with told := true, task := task })
        (by simp)
      refine ⟨by rw [length_modify]; exact hcount, by omega⟩
  | wait id =>
      simp only [SessionSet.step, Option.map_eq_some_iff] at h
      obtain ⟨n, -, rfl⟩ := h
      refine ⟨by rw [setTask, length_modify]; exact hcount, ?_⟩
      rw [live_setTask]
      exact hlimit
  | delete id =>
      simp only [SessionSet.step, Option.map_eq_some_iff] at h
      obtain ⟨n, hn, rfl⟩ := h
      have hmem := mem_of_find hn
      have hlen := List.length_erase_of_mem hmem
      have hpos := List.length_pos_of_mem hmem
      have hlive : (s.list.erase n).countP (fun n => !n.told) ≤ s.live :=
        List.Sublist.countP_le List.erase_sublist
      refine ⟨?_, ?_⟩
      · show s.count - 1 = ((s.list.erase n).length : Int)
        omega
      · show ((s.list.erase n).countP _ : Int) ≤ max
        omega

/-- A place that is wasted breaks the limit. -/
theorem live_of_wasted (hmax : 0 < max) (hs : s.Inv max) (h : s.step max x = some s')
    (hx : s.Wasted max x) : ¬ (s'.live : Int) ≤ max := by
  cases x with
  | accept =>
      obtain ⟨hfull, n, hhead, htold⟩ := hx
      have hlen := s.live_le_length
      have hcount := hs.count
      obtain ⟨-, -, ⟨hlt, -⟩ | ⟨-, n', hhead', hlive⟩⟩ := accept_cases hmax h
      · omega
      · rw [hhead] at hhead'
        cases hhead'
        rw [htold] at hlive
        simp only [if_true] at hlive
        omega
  | update id => exact hx.elim
  | terminate id => exact hx.elim
  | wait id => exact hx.elim
  | delete id => exact hx.elim

end step

/-- For every limit and every run: never more sessions are live than there may be exactly if no
session is created while that many are live and the first of the list has been told to terminate
before. -/
theorem everyState_live_iff {max : Int} (hmax : 0 < max) (xs : List Step) :
    EveryState (step max) (fun s => (s.live : Int) ≤ max) init xs ↔
      EveryStep (step max) (fun s x => ¬ s.Wasted max x) init xs := by
  apply everyState_iff (Inv max) Inv.limit
  · intro s x s' hs h hx
    exact hs.step hmax h hx
  · intro s x s' hs h hx
    exact live_of_wasted hmax hs h hx
  · exact ⟨rfl, by show (0 : Int) ≤ max; omega⟩

/-- With a limit of two, two sessions in a row stay below it. -/
theorem live_two_sessions :
    EveryState (step 2) (fun s => (s.live : Int) ≤ 2) init [.accept, .accept] := by
  apply (everyState_live_iff (by decide) _).mpr
  intro s₁ hs₁
  have hfirst : ¬ init.Wasted 2 .accept := fun h => absurd h.1 (by decide)
  refine ⟨hfirst, ?_⟩
  intro s₂ hs₂
  cases hs₁
  exact ⟨fun h => absurd h.1 (by decide), trivial⟩

/-- Four sessions in a row, none of which ends: the last two creations both tell the first session
to terminate, which has been told before. -/
theorem live_four_sessions : ∃ s,
    runSteps (step 2) init [.accept, .accept, .accept, .accept] = some s ∧ s.live = 3 ∧
      ¬ (s.live : Int) ≤ 2 :=
  ⟨_, rfl, by decide, by decide⟩

end SessionSet

end HevTunnel
