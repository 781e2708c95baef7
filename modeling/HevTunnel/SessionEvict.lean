import HevTunnel.Recency
import HevTunnel.SessionSet
import Mathlib.Data.List.Nodup
import Mathlib.Logic.Function.Basic

/-! # The session that has to go

`hev_socks5_tunnel_insert_session` appends a new session and, if `session_count` has reached
`max_session_count`, tells the first session of the list to terminate.

* `SessionSet.victim` is the session that is told.  `TimedSet` adds the time of the last activity of
  each session, so that the first session of the list is the least recently active one
  (`Inv.head_le`).
* `evictsRight_iff`: in every state that a tunnel reaches, the next insertion evicts as it should
  exactly if the limit is 0, or positive and not the number of sessions with the new one. -/

namespace HevTunnel

namespace SessionSet

/-- The set with a new session, whose task does not run yet. -/
def inserted (s : SessionSet) : SessionSet :=
  ⟨s.list ++ [⟨s.next, false, .stopped⟩], s.count + 1, s.next + 1⟩

/-- The session that `hev_socks5_tunnel_insert_session` tells to terminate. -/
def victim (max : Int) (s : SessionSet) : Option SessionNode :=
  if max = 0 ∨ s.inserted.count < max then none else s.inserted.list.head?

/-- The names of the sessions. -/
def ids (s : SessionSet) : List ℕ := s.list.map SessionNode.id

theorem length_ids (s : SessionSet) : s.ids.length = s.list.length := List.length_map _

section insertion
variable {max : Int} {s s' : SessionSet}

/-- The insertion tells the victim and nobody else. -/
theorem insertSession_eq (max : Int) (s : SessionSet) :
    s.insertSession max =
      match s.victim max with
      | none => some s.inserted
      | some n => n.terminate.map (fun n' => { s.inserted with list := n' :: s.inserted.list.tail }) := by
  unfold insertSession victim
  show (if max = 0 ∨ s.inserted.count < max then _ else _) = _
  split_ifs
  · rfl
  · cases hlist : s.list with
    | nil => simp only [inserted, hlist, List.nil_append, List.head?_cons]; rfl
    | cons n rest =>
        simp only [inserted, hlist, List.cons_append, List.head?_cons, List.tail_cons,
          Option.bind_eq_bind, Option.pure_def]
        cases n.terminate <;> rfl

theorem terminate_cases {n n' : SessionNode} (h : n.terminate = some n') :
    n.task ≠ .stopped ∧ n' = ⟨n.id, true, .running⟩ := by
  obtain ⟨id, told, task⟩ := n
  cases task with
  | stopped => cases h
  | running =>
      cases h
      exact ⟨by simp, rfl⟩
  | waiting =>
      cases h
      exact ⟨by simp, rfl⟩

theorem ids_modify {id : ℕ} {f : SessionNode → SessionNode}
    (hf : ∀ n ∈ s.list, n.id = id → (f n).id = n.id) : (s.modify id f).ids = s.ids := by
  unfold ids modify
  rw [List.map_map]
  apply List.map_congr_left
  intro n hn
  simp only [Function.comp_apply]
  split_ifs with hid
  · exact hf n hn hid
  · rfl

/-- What an insertion that does not abort leaves behind: the names in their order, and no session
without a running task but the new one. -/
theorem insertSession_spec (hstarted : ∀ n ∈ s.list, n.task ≠ .stopped)
    (h : s.insertSession max = some s') :
    s'.count = s.count + 1 ∧ s'.next = s.next + 1 ∧ s'.ids = s.ids ++ [s.next] ∧
      ∀ n ∈ s'.list, n.task ≠ .stopped ∨ n.id = s.next := by
  have hinserted : ∀ n ∈ s.inserted.list, n.task ≠ .stopped ∨ n.id = s.next := by
    intro n hn
    rcases List.mem_append.mp hn with hn | hn
    · exact .inl (hstarted n hn)
    · rw [List.mem_singleton.mp hn]
      exact .inr rfl
  have hids : s.inserted.ids = s.ids ++ [s.next] := by simp [ids, inserted]
  rw [insertSession_eq] at h
  cases hv : s.victim max with
  | none =>
      rw [hv] at h
      cases h
      exact ⟨rfl, rfl, hids, hinserted⟩
  | some n =>
      simp only [hv, Option.map_eq_some_iff] at h
      obtain ⟨n', hterm, rfl⟩ := h
      obtain ⟨-, rfl⟩ := terminate_cases hterm
      have hhead : s.inserted.list.head? = some n := by
        unfold victim at hv
        split_ifs at hv
        exact hv
      obtain ⟨rest, hrest⟩ := List.head?_eq_some_iff.mp hhead
      refine ⟨rfl, rfl, ?_, ?_⟩
      · rw [← hids]
        simp [ids, hrest]
      · intro m hm
        rw [hrest, List.tail_cons] at hm
        rcases List.mem_cons.mp hm with rfl | hm
        · exact .inl (by simp)
        · exact hinserted m (by rw [hrest]; exact List.mem_cons_of_mem _ hm)

theorem accept_spec (hstarted : ∀ n ∈ s.list, n.task ≠ .stopped) (h : s.accept max = some s') :
    s'.count = s.count + 1 ∧ s'.next = s.next + 1 ∧ s'.ids = s.ids ++ [s.next] ∧
      ∀ n ∈ s'.list, n.task ≠ .stopped := by
  simp only [accept, Option.bind_eq_bind, Option.bind_eq_some_iff, Option.pure_def,
    Option.some.injEq] at h
  obtain ⟨s₁, hins, rfl⟩ := h
  obtain ⟨hcount, hnext, hids, hrun⟩ := insertSession_spec hstarted hins
  refine ⟨hcount, hnext, ?_, ?_⟩
  · rw [← hids]
    exact ids_modify fun _ _ _ => rfl
  · intro n hn
    obtain ⟨m, hm, rfl⟩ := List.mem_map.mp hn
    split_ifs with hid
    · simp
    · exact (hrun m hm).resolve_right hid

end insertion

end SessionSet

/-! ### Activity -/

/-- A set of sessions with the time of the last activity of each of them. -/
structure TimedSet where
  set : SessionSet
  active : ℕ → ℕ
  now : ℕ

namespace TimedSet

open SessionSet

def init : TimedSet := ⟨.init, fun _ => 0, 0⟩

/-- The times of the last activity when a step is done: a new session is active, and so is a session
whose task yields. -/
def activity (t : TimedSet) : SessionSet.Step → ℕ → ℕ
  | .accept => Function.update t.active t.set.next t.now
  | .update id => Function.update t.active id t.now
  | _ => t.active

def step (max : Int) (t : TimedSet) (x : SessionSet.Step) : Option TimedSet := do
  let s ← t.set.step max x
  pure ⟨s, t.activity x, t.now + 1⟩

/-- An insertion tells a session to terminate only if there is a limit and the set exceeds it with
the new session.  It is then the one whose last activity is longest ago, and not the new one; and the
insertion does not abort. -/
structure EvictsRight (max : Int) (t : TimedSet) : Prop where
  exceeded : ∀ n, t.set.victim max = some n → 0 < max ∧ max < t.set.inserted.list.length
  oldest : ∀ n, t.set.victim max = some n → n.id ≠ t.set.next ∧
    ∀ m ∈ t.set.inserted.list, t.activity .accept n.id ≤ t.activity .accept m.id
  survives : t.set.insertSession max ≠ none

/-- The list is in the order of activity, if there is a limit. -/
structure Inv (max : Int) (t : TimedSet) : Prop where
  count : t.set.count = t.set.list.length
  started : ∀ n ∈ t.set.list, n.task ≠ .stopped
  fresh : ∀ i ∈ t.set.ids, i < t.set.next
  past : ∀ i ∈ t.set.ids, t.active i < t.now
  order : max ≠ 0 → t.set.ids.Pairwise (fun i j => t.active i < t.active j)

theorem inv_init (max : Int) : init.Inv max :=
  ⟨rfl, by simp [init, SessionSet.init], by simp [init, SessionSet.init, ids],
    by simp [init, SessionSet.init, ids], by simp [init, SessionSet.init, ids]⟩

section step
variable {max : Int} {t t' : TimedSet}

/-- Names that become active now at the end of the list keep it in order. -/
theorem pairwise_append_now {is : List ℕ} {i : ℕ} (hi : i ∉ is) (hpast : ∀ j ∈ is, t.active j < t.now)
    (horder : is.Pairwise (fun i j => t.active i < t.active j)) :
    (is ++ [i]).Pairwise (fun j k => Function.update t.active i t.now j <
      Function.update t.active i t.now k) := by
  rw [update_eq_touch]
  exact ((Recency.mk hpast horder).moved (.append (.refl is) hi)).order

/-- A name that becomes active now was active before the next step. -/
theorem update_lt_succ {is : List ℕ} {i : ℕ} (hpast : ∀ j ∈ is, t.active j < t.now) {j : ℕ}
    (hj : j ∈ is ∨ j = i) : Function.update t.active i t.now j < t.now + 1 := by
  by_cases hji : j = i
  · rw [hji, Function.update_self]
    exact Nat.lt_succ_self _
  · rw [Function.update_of_ne hji]
    exact Nat.lt_succ_of_lt (hpast j (hj.resolve_right hji))

theorem Inv.accept (h : t.Inv max) {s : SessionSet} (hs : t.set.accept max = some s) :
    Inv max ⟨s, t.activity .accept, t.now + 1⟩ := by
  obtain ⟨hcount, hnext, hids, hstarted⟩ := accept_spec h.started hs
  have hlen : s.list.length = t.set.list.length + 1 := by
    rw [← length_ids, ← length_ids, hids, List.length_append, List.length_singleton]
  have hnew : t.set.next ∉ t.set.ids := fun hmem => absurd (h.fresh _ hmem) (lt_irrefl _)
  refine ⟨?_, hstarted, ?_, ?_, ?_⟩
  · show s.count = _
    rw [hcount, h.count, hlen]
    omega
  · intro i hi
    show i < s.next
    rw [hids, List.mem_append, List.mem_singleton] at hi
    rcases hi with hi | rfl
    · have := h.fresh i hi
      omega
    · omega
  · intro i hi
    rw [hids, List.mem_append, List.mem_singleton] at hi
    exact update_lt_succ h.past hi
  · intro hmax
    show s.ids.Pairwise _
    rw [hids]
    exact pairwise_append_now hnew h.past (h.order hmax)

/-- A session whose task yields goes to the end of the list. -/
theorem Inv.update (h : t.Inv max) {id : ℕ} {n : SessionNode} (hn : t.set.find id = some n) :
    Inv max ⟨t.set.updateSession max n, t.activity (.update id), t.now + 1⟩ := by
  have hmem := mem_of_find hn
  have hid : n.id = id := by simpa using List.find?_some hn
  have hperm := updateSession_perm max hmem
  have hids : (t.set.updateSession max n).ids.Perm t.set.ids := hperm.map _
  have hid' : id ∈ t.set.ids := hid ▸ List.mem_map_of_mem hmem
  have hnext : (t.set.updateSession max n).next = t.set.next := by
    unfold updateSession
    split_ifs <;> rfl
  have hcount : (t.set.updateSession max n).count = t.set.count := by
    unfold updateSession
    split_ifs <;> rfl
  refine ⟨?_, ?_, ?_, ?_, ?_⟩
  · show (t.set.updateSession max n).count = _
    rw [hcount, h.count, hperm.length_eq]
  · intro m hm
    exact h.started m (hperm.mem_iff.mp hm)
  · intro i hi
    show i < (t.set.updateSession max n).next
    rw [hnext]
    exact h.fresh i (hids.mem_iff.mp hi)
  · intro i hi
    exact update_lt_succ h.past (.inl (hids.mem_iff.mp hi))
  · intro hmax
    have horder := h.order hmax
    have hnodup : t.set.ids.Nodup := horder.imp fun hlt => by
      rintro rfl
      exact lt_irrefl _ hlt
    have hmoved : (t.set.updateSession max n).ids = (t.set.list.erase n).map SessionNode.id ++ [id] := by
      rw [updateSession, if_neg hmax, ids, List.map_append, List.map_singleton, hid]
    have hsub : ((t.set.list.erase n).map SessionNode.id).Sublist t.set.ids :=
      List.erase_sublist.map _
    have hnot : id ∉ (t.set.list.erase n).map SessionNode.id := by
      have := hids.nodup_iff.mpr hnodup
      rw [hmoved, List.nodup_append] at this
      exact fun hmem => this.2.2 id hmem id (by simp) rfl
    show (t.set.updateSession max n).ids.Pairwise _
    rw [hmoved]
    exact pairwise_append_now hnot (fun j hj => h.past j (hsub.subset hj)) (horder.sublist hsub)

/-- A step that leaves the names and the times alone. -/
theorem Inv.of_ids (h : t.Inv max) {s : SessionSet} (hids : s.ids = t.set.ids)
    (hcount : s.count = t.set.count) (hnext : s.next = t.set.next)
    (hstarted : ∀ n ∈ s.list, n.task ≠ .stopped) : Inv max ⟨s, t.active, t.now + 1⟩ := by
  have hlen : s.list.length = t.set.list.length := by rw [← length_ids, ← length_ids, hids]
  refine ⟨?_, hstarted, ?_, ?_, ?_⟩
  · show s.count = _
    rw [hcount, h.count, hlen]
  · intro i hi
    show i < s.next
    rw [hnext]
    exact h.fresh i (hids ▸ hi)
  · intro i hi
    exact Nat.lt_succ_of_lt (h.past i (hids ▸ hi))
  · intro hmax
    show s.ids.Pairwise _
    rw [hids]
    exact h.order hmax

theorem Inv.delete (h : t.Inv max) {id : ℕ} {n : SessionNode} (hn : t.set.find id = some n) :
    Inv max ⟨t.set.deleteSession n, t.active, t.now + 1⟩ := by
  have hmem := mem_of_find hn
  have hlen := List.length_erase_of_mem hmem
  have hpos := List.length_pos_of_mem hmem
  have hsub : ((t.set.list.erase n).map SessionNode.id).Sublist t.set.ids :=
    List.erase_sublist.map _
  refine ⟨?_, ?_, ?_, ?_, ?_⟩
  · show t.set.count - 1 = ((t.set.list.erase n).length : Int)
    rw [h.count, hlen]
    omega
  · exact fun m hm => h.started m (List.mem_of_mem_erase hm)
  · exact fun i hi => h.fresh i (hsub.subset hi)
  · exact fun i hi => Nat.lt_succ_of_lt (h.past i (hsub.subset hi))
  · exact fun hmax => (h.order hmax).sublist hsub

theorem Inv.step {x : SessionSet.Step} (h : t.Inv max) (hs : t.step max x = some t') :
    t'.Inv max := by
  simp only [TimedSet.step, Option.bind_eq_bind, Option.bind_eq_some_iff, Option.pure_def,
    Option.some.injEq] at hs
  obtain ⟨s, hs, rfl⟩ := hs
  cases x with
  | accept => exact h.accept hs
  | update id =>
      obtain ⟨n, hn, rfl⟩ := Option.map_eq_some_iff.mp hs
      exact h.update hn
  | terminate id =>
      simp only [SessionSet.step, Option.bind_eq_bind, Option.bind_eq_some_iff, Option.pure_def,
        Option.some.injEq] at hs
      obtain ⟨n, hn, n', hterm, rfl⟩ := hs
      have hid : n.id = id := by simpa using List.find?_some hn
      obtain ⟨-, rfl⟩ := terminate_cases hterm
      refine h.of_ids (ids_modify fun m _ hm => hid.trans hm.symm) rfl rfl ?_
      intro m hm
      obtain ⟨m', hm', rfl⟩ := List.mem_map.mp hm
      split_ifs
      · simp
      · exact h.started m' hm'
  | wait id =>
      obtain ⟨n, -, rfl⟩ := Option.map_eq_some_iff.mp hs
      refine h.of_ids (ids_modify fun _ _ _ => rfl) rfl rfl ?_
      intro m hm
      obtain ⟨m', hm', rfl⟩ := List.mem_map.mp hm
      split_ifs
      · simp
      · exact h.started m' hm'
  | delete id =>
      obtain ⟨n, hn, rfl⟩ := Option.map_eq_some_iff.mp hs
      exact h.delete hn

end step

/-! ### The result -/

section result
variable {max : Int} {t : TimedSet}

/-- The first of some sessions is the least recently active one, also with the new one. -/
theorem Inv.head_le (h : t.Inv max) (hmax : max ≠ 0) {n : SessionNode} {rest : List SessionNode}
    (hlist : t.set.list = n :: rest) :
    n.id ≠ t.set.next ∧
      ∀ m ∈ t.set.inserted.list, t.activity .accept n.id ≤ t.activity .accept m.id := by
  have hids : t.set.ids = n.id :: rest.map SessionNode.id := by simp [ids, hlist]
  have hnew : t.set.next ∉ t.set.ids := fun hmem => absurd (h.fresh _ hmem) (lt_irrefl _)
  have hpair := pairwise_append_now (t := t) hnew h.past (h.order hmax)
  rw [hids, List.cons_append, List.pairwise_cons] at hpair
  refine ⟨?_, ?_⟩
  · intro hid
    exact hnew (by rw [hids, ← hid]; exact List.mem_cons_self)
  · intro m hm
    have hm' : m.id ∈ n.id :: (rest.map SessionNode.id ++ [t.set.next]) := by
      have := List.mem_map_of_mem (f := SessionNode.id) hm
      simpa [inserted, hlist] using this
    rcases List.mem_cons.mp hm' with hid | hmem
    · rw [hid]
    · exact le_of_lt (hpair.1 m.id hmem)

/-- A victim there is exactly if the limit is not 0 and is reached with the new session. -/
theorem victim_eq_none_iff (max : Int) (s : SessionSet) :
    s.victim max = none ↔ max = 0 ∨ s.count + 1 < max := by
  unfold victim
  split_ifs with hlimit
  · exact iff_of_true rfl hlimit
  · refine iff_of_false ?_ hlimit
    simp [inserted]

/-- With a limit that is not just reached, the victim is the first session before the insertion. -/
theorem Inv.victim_eq (h : t.Inv max)
    (hcond : max = 0 ∨ (0 < max ∧ (t.set.list.length : Int) + 1 ≠ max)) {n : SessionNode}
    (hn : t.set.victim max = some n) :
    0 < max ∧ max < t.set.list.length + 1 ∧ ∃ rest, t.set.list = n :: rest := by
  have hcount := h.count
  have hsome : ¬ (max = 0 ∨ t.set.count + 1 < max) := by
    rw [← victim_eq_none_iff, hn]
    simp
  have hlt : 0 < max ∧ max < t.set.list.length + 1 := by omega
  refine ⟨hlt.1, hlt.2, ?_⟩
  unfold victim at hn
  split_ifs at hn
  cases hlist : t.set.list with
  | nil =>
      rw [hlist, List.length_nil] at hlt
      omega
  | cons m rest =>
      rw [inserted, hlist, List.cons_append, List.head?_cons, Option.some.injEq] at hn
      exact ⟨rest, by rw [hn]⟩

/-- For every limit and every set that a tunnel reaches: the next insertion evicts as it should
exactly if the limit is 0, or positive and not equal to the number of sessions with the new one. -/
theorem evictsRight_iff {xs : List SessionSet.Step} (ht : runSteps (step max) init xs = some t) :
    t.EvictsRight max ↔ max = 0 ∨ (0 < max ∧ (t.set.list.length : Int) + 1 ≠ max) := by
  have h : t.Inv max := runSteps_invariant (Inv max) (fun hinv hs => hinv.step hs) (inv_init max) ht
  have hlen : (t.set.inserted.list.length : Int) = t.set.list.length + 1 := by simp [inserted]
  constructor
  · intro hright
    by_contra hbad
    -- there is a victim, but the limit is not exceeded
    have hcount := h.count
    obtain ⟨n, hn⟩ : ∃ n, t.set.victim max = some n := by
      rw [← Option.ne_none_iff_exists', ne_eq, victim_eq_none_iff]
      omega
    have := hright.exceeded n hn
    omega
  · intro hcond
    refine ⟨?_, ?_, ?_⟩
    · intro n hn
      obtain ⟨hpos, hlt, -⟩ := h.victim_eq hcond hn
      exact ⟨hpos, by omega⟩
    · intro n hn
      obtain ⟨hpos, -, rest, hlist⟩ := h.victim_eq hcond hn
      exact h.head_le (by omega) hlist
    · rw [insertSession_eq]
      cases hv : t.set.victim max with
      | none => simp
      | some n =>
          obtain ⟨-, -, rest, hlist⟩ := h.victim_eq hcond hv
          have hstarted := h.started n (by rw [hlist]; exact List.mem_cons_self)
          simp [n.terminate_eq_none_iff, hstarted]

end result

/-- With a limit of two and two sessions, a third one takes the place of the first. -/
theorem evictsRight_third :
    ∃ t, runSteps (step 2) init [.accept, .accept] = some t ∧ t.EvictsRight 2 :=
  have ht : runSteps (step 2) init [.accept, .accept] = some _ := rfl
  ⟨_, ht, (evictsRight_iff ht).mpr (.inr ⟨by decide, by decide⟩)⟩

/-- With a limit of two the second session already tells the first one to terminate.  With a limit of
one the first session is its own victim, and the process aborts. -/
theorem evicts_early :
    (∃ t, runSteps (step 2) init [.accept] = some t ∧
      t.set.victim 2 = some ⟨0, false, .running⟩ ∧ ¬ t.EvictsRight 2) ∧
    SessionSet.init.victim 1 = some ⟨0, false, .stopped⟩ ∧
    SessionSet.init.insertSession 1 = none ∧ SessionSet.init.insertSession (-1) = none := by
  refine ⟨⟨_, rfl, rfl, ?_⟩, rfl, rfl, rfl⟩
  intro h
  exact absurd (h.exceeded _ rfl).2 (by decide)

end TimedSet

end HevTunnel
