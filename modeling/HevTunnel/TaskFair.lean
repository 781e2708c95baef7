import HevTunnel.TaskRefine

/-! # A task that can run is served soon

A task that has been served goes behind those that wait longer: its key grows by its priority, and a
task that is woken up or started gets a key behind the first one.  So if no priority is 0, the keys of
the tasks in the list are at most 15 apart (`Fair`), and each time a task gives the processor back the
wait of the others gets shorter (`Fair.leave`).  `served_of_leaves`: among `n` tasks every one of them
is the current task by the time `16 * n` tasks have given the processor back.

The keys do not wrap around before `2 ^ 59` events. -/

namespace HevTunnel

open FairQueue

/-- A task whose priorities are not 0.  When it waits, its key is the priority it had. -/
structure HevTask.Fair (t : HevTask) : Prop where
  nextPriority : t.nextPriority ≠ 0
  priority : t.state = .running → t.priority ≠ 0
  parked : t.state = .waiting → 0 < t.schedKey.toNat ∧ t.schedKey.toNat ≤ 15

/-- The event is one at which a task gives the processor back. -/
def SchedEvent.isLeave {α : Type} : SchedEvent α → Bool
  | .leave _ _ => true
  | _ => false

namespace TaskSystem

variable {α : Type} [DecidableEq α] {v v' : TaskSystem (List α) α} {ws : List α} {n : ℕ} {x c : α}
  {t : HevTask}

/-! ### Keys -/

theorem minKey_toNat (v : TaskSystem (List α) α) :
    v.minKey.toNat = v.runningTasks.head?.elim 0 (keyOf v.tasks) := by
  simp only [minKey, getMinSchedKey, ReadyQueue.first]
  cases v.runningTasks.head? with
  | none => rfl
  | some c =>
      simp only [Option.elim_some, keyOf]
      cases v.tasks c <;> rfl

theorem minKey_of_head (hc : v.runningTasks.head? = some c) :
    v.minKey.toNat = keyOf v.tasks c := by
  rw [minKey_toNat, hc, Option.elim_some]

theorem minKey_of_nil (hnil : v.runningTasks = []) : v.minKey.toNat = 0 := by
  rw [minKey_toNat, hnil]
  rfl

theorem Inv.minKey_le (h : Inv v ws) {y : α} (hy : y ∈ v.runningTasks) :
    v.minKey.toNat ≤ keyOf v.tasks y := by
  have hsorted := h.sorted
  cases hl : v.runningTasks with
  | nil => simp [hl] at hy
  | cons c l =>
      rw [minKey_of_head (by rw [hl, List.head?_cons])]
      rw [hl] at hy hsorted
      rcases List.mem_cons.mp hy with rfl | hy
      · exact le_rfl
      · exact (List.pairwise_cons.mp hsorted).1 y hy

theorem toNat_priority (p : Fin 16) : (BitVec.ofNat 64 p).toNat = p := by
  rw [BitVec.toNat_ofNat, Nat.mod_eq_of_lt (by omega)]

theorem minKey_congr (hl : v'.runningTasks = v.runningTasks)
    (hk : ∀ y ∈ v.runningTasks, keyOf v'.tasks y = keyOf v.tasks y) :
    v'.minKey.toNat = v.minKey.toNat := by
  rw [minKey_toNat, minKey_toNat, hl]
  cases hc : v.runningTasks.head? with
  | none => rfl
  | some c => exact hk c (List.mem_of_head? hc)

theorem minKey_le_of_forall {b : ℕ} (h : ∀ y ∈ v.runningTasks, keyOf v.tasks y ≤ b) :
    v.minKey.toNat ≤ b := by
  rw [minKey_toNat]
  cases hc : v.runningTasks.head? with
  | none => exact Nat.zero_le _
  | some c => exact h c (List.mem_of_head? hc)

/-! ### The invariant -/

/-- What holds when no priority is 0; `n` counts the times that a task has given the processor back. -/
structure Fair (n : ℕ) (v : TaskSystem (List α) α) : Prop where
  tasks : ∀ x, ∀ t ∈ v.tasks x, t.Fair
  spread : ∀ y ∈ v.runningTasks, keyOf v.tasks y ≤ v.minKey.toNat + 15
  bound : v.minKey.toNat ≤ 15 * (n + 1)
  idle : v.currentTask = none →
    (∀ y ∈ v.runningTasks, keyOf v.tasks y ≤ 15) ∧ ∀ x, v.state x ≠ some .waiting

/-- What a change does to the list while a task runs: a task enters it behind the first one. -/
structure Grows (v v' : TaskSystem (List α) α) : Prop where
  keys : ∀ y ∈ v.runningTasks, keyOf v'.tasks y = keyOf v.tasks y
  list : v'.runningTasks = v.runningTasks ∨ ∃ x ∉ v.runningTasks,
    v'.runningTasks = enqueue (keyOf v'.tasks) x v.runningTasks ∧ v.minKey.toNat < keyOf v'.tasks x

theorem Grows.head (h : Grows v v') (hc : v.runningTasks.head? = some c) :
    v'.runningTasks.head? = some c := by
  rcases h.list with hl | ⟨x, -, hl, hlt⟩
  · rw [hl, hc]
  · obtain ⟨l, hvl⟩ := List.head?_eq_some_iff.mp hc
    have hkc : keyOf v'.tasks c ≤ keyOf v'.tasks x := by
      rw [h.keys c (List.mem_of_head? hc), ← minKey_of_head hc]
      exact hlt.le
    rw [hl, hvl, enqueue_cons_of_le hkc, List.head?_cons]

theorem Grows.mem (h : Grows v v') {y : α} (hy : y ∈ v.runningTasks) : y ∈ v'.runningTasks := by
  rcases h.list with hl | ⟨x, -, hl, -⟩
  · rwa [hl]
  · rw [hl]
    exact mem_enqueue.mpr (.inr hy)

theorem Grows.patience (h : Grows v v') (hinv : Inv v ws) (hx : x ∈ v.runningTasks) (m : ℕ) :
    patience m (keyOf v'.tasks) x v'.runningTasks = patience m (keyOf v.tasks) x v.runningTasks := by
  rw [← patience_congr h.keys hx]
  rcases h.list with hl | ⟨y, hy, hl, hlt⟩
  · rw [hl]
  · have hsorted : Sorted (keyOf v'.tasks) v.runningTasks := hinv.sorted.congr h.keys
    rw [hl]
    cases hvl : v.runningTasks with
    | nil => simp [hvl] at hx
    | cons c l =>
        have hc : v.runningTasks.head? = some c := by rw [hvl, List.head?_cons]
        rw [hvl] at hsorted
        refine patience_enqueue hsorted (ne_of_mem_of_not_mem hx hy).symm ?_
        rw [h.keys c (List.mem_of_head? hc), ← minKey_of_head hc]
        exact hlt

namespace Fair

theorem tasks_put (h : Fair n v) {u : Option HevTask} (hu : ∀ t ∈ u, t.Fair) :
    ∀ y, ∀ t ∈ (v.put x u).tasks y, t.Fair := by
  intro y t ht
  by_cases hy : y = x
  · rw [hy, put_tasks_self] at ht
    exact hu t ht
  · rw [put_tasks, Function.update_of_ne hy] at ht
    exact h.tasks y t ht

/-- A write to a task that does not change the keys in the list. -/
theorem put (h : Fair n v) {u : Option HevTask} (hu : ∀ t ∈ u, t.Fair)
    (hk : ∀ y ∈ v.runningTasks, keyOf (v.put x u).tasks y = keyOf v.tasks y)
    (hw : u.map HevTask.state = some .waiting → v.state x = some .waiting) :
    Fair n (v.put x u) := by
  have hmin : (v.put x u).minKey.toNat = v.minKey.toNat := minKey_congr rfl hk
  refine ⟨h.tasks_put hu, ?_, by rw [hmin]; exact h.bound, fun hcur => ⟨?_, ?_⟩⟩
  · intro y hy
    rw [hmin, hk y hy]
    exact h.spread y hy
  · intro y hy
    rw [hk y hy]
    exact (h.idle hcur).1 y hy
  · intro y hy
    rw [state_put] at hy
    split_ifs at hy with hyx
    · exact (h.idle hcur).2 x (hw hy)
    · exact (h.idle hcur).2 y hy

/-- A task enters the list. -/
theorem enlist (h : Fair n v) (hx : x ∉ v.runningTasks) (ht : t.Fair)
    (hs : t.state = .running) (hle : t.schedKey.toNat ≤ v.minKey.toNat + 15)
    (hgt : v.currentTask ≠ none → v.minKey.toNat < t.schedKey.toNat)
    (hidle : v.currentTask = none → t.schedKey.toNat ≤ 15) :
    Fair n (v.enlist x t) ∧ (v.currentTask ≠ none → Grows v (v.enlist x t)) := by
  have hk : ∀ y ∈ v.runningTasks, keyOf (v.enlist x t).tasks y = keyOf v.tasks y :=
    fun y hy => keyOf_update_of_ne (ne_of_mem_of_not_mem hy hx) ..
  have hkx : keyOf (v.enlist x t).tasks x = t.schedKey.toNat := keyOf_update_self ..
  have hgrows : v.currentTask ≠ none → Grows v (v.enlist x t) := fun hcur =>
    ⟨hk, .inr ⟨x, hx, rfl, by rw [hkx]; exact hgt hcur⟩⟩
  have htasks : ∀ y, ∀ u ∈ (v.enlist x t).tasks y, u.Fair := h.tasks_put (by simpa using ht)
  have hwaiting : v.currentTask = none → ∀ y, (v.enlist x t).state y ≠ some .waiting := by
    intro hcur y hy
    have hy' : (v.put x (some t)).state y = some .waiting := hy
    rw [state_put] at hy'
    split_ifs at hy' with hyx
    · simp [hs] at hy'
    · exact (h.idle hcur).2 y hy'
  have hmem : ∀ {b}, (∀ y ∈ v.runningTasks, keyOf v.tasks y ≤ b) → t.schedKey.toNat ≤ b →
      ∀ y ∈ (v.enlist x t).runningTasks, keyOf (v.enlist x t).tasks y ≤ b := by
    intro b hb hxb y hy
    rcases mem_enqueue.mp hy with rfl | hy
    · rwa [hkx]
    · rw [hk y hy]
      exact hb y hy
  refine ⟨?_, hgrows⟩
  -- Without a current task, or without another task in the list, all keys are priorities.
  by_cases hsmall : (∀ y ∈ v.runningTasks, keyOf v.tasks y ≤ 15) ∧ t.schedKey.toNat ≤ 15
  · have hall := hmem hsmall.1 hsmall.2
    refine ⟨htasks, fun y hy => (hall y hy).trans (Nat.le_add_left _ _),
      (minKey_le_of_forall hall).trans (by omega), fun hcur => ⟨hall, hwaiting hcur⟩⟩
  · have hcur : v.currentTask ≠ none := fun hcur => hsmall ⟨(h.idle hcur).1, hidle hcur⟩
    obtain ⟨c, hc⟩ : ∃ c, v.runningTasks.head? = some c := by
      refine Option.ne_none_iff_exists'.mp fun hnone => hsmall ?_
      have hnil := List.head?_eq_none_iff.mp hnone
      rw [minKey_of_nil hnil] at hle
      exact ⟨by simp [hnil], hle⟩
    have hmin : (v.enlist x t).minKey.toNat = v.minKey.toNat := by
      rw [minKey_of_head ((hgrows hcur).head hc), minKey_of_head hc, hk c (List.mem_of_head? hc)]
    refine ⟨htasks, ?_, by rw [hmin]; exact h.bound, fun hnone => absurd hnone hcur⟩
    rw [hmin]
    exact hmem h.spread hle

theorem edit (h : Fair n v) (hinv : Inv v ws) (hn : n < 2 ^ 59) (he : Edit (· ≠ 0) v v') :
    Fair n v' ∧ (v.currentTask ≠ none → Grows v v') := by
  have hout : ∀ {x u}, x ∉ v.runningTasks →
      ∀ y ∈ v.runningTasks, keyOf (v.put x u).tasks y = keyOf v.tasks y :=
    fun hx y hy => keyOf_update_of_ne (ne_of_mem_of_not_mem hy hx) ..
  have hlow : v.minKey.toNat ≤ 15 * (n + 1) + 15 := h.bound.trans (Nat.le_add_right _ _)
  cases he with
  | @new x hx =>
      have hnot : x ∉ v.runningTasks := by
        rw [hinv.mem_running, state, hx]
        simp
      refine ⟨h.put ?_ (hout hnot) (by simp), fun _ => ⟨hout hnot, .inl rfl⟩⟩
      rintro t ⟨⟩
      exact ⟨by decide, by simp, by simp⟩
  | @count x t m hx _ =>
      have hk : ∀ y ∈ v.runningTasks, _ := fun y _ =>
        keyOf_update_same (u := { t with refCount := m }) hx rfl y
      refine ⟨h.put ?_ hk fun hw => (state_eq hx).trans hw, fun _ => ⟨hk, .inl rfl⟩⟩
      rintro u ⟨⟩
      exact ⟨(h.tasks x t hx).nextPriority, (h.tasks x t hx).priority, (h.tasks x t hx).parked⟩
  | @priority x t p hx hp =>
      have hk : ∀ y ∈ v.runningTasks, _ := fun y _ =>
        keyOf_update_same (u := { t with nextPriority := p }) hx rfl y
      refine ⟨h.put ?_ hk fun hw => (state_eq hx).trans hw, fun _ => ⟨hk, .inl rfl⟩⟩
      rintro u ⟨⟩
      exact ⟨hp, (h.tasks x t hx).priority, (h.tasks x t hx).parked⟩
  | @free x t hx hs =>
      have hnot := hinv.not_mem_running ((state_eq hx).trans (by rw [hs])) (by decide)
      exact ⟨h.put (by simp) (hout hnot) (by simp), fun _ => ⟨hout hnot, .inl rfl⟩⟩
  | @wake x t hx hs =>
      have hstate := (state_eq hx).trans (by rw [hs])
      obtain ⟨hpos, hle⟩ := (h.tasks x t hx).parked hs
      have hnext := (h.tasks x t hx).nextPriority
      have hkey : (t.woken v.minKey).schedKey.toNat = v.minKey.toNat + t.schedKey.toNat := by
        rw [Nat.add_comm]
        exact BitVec.toNat_add_of_lt (by omega)
      refine h.enlist (hinv.not_mem_running hstate (by decide))
        ⟨hnext, fun _ => hnext, by simp [HevTask.woken]⟩ rfl (by omega) (fun _ => by omega) ?_
      exact fun hcur => absurd hstate ((h.idle hcur).2 x)
  | @start x t hx hs =>
      have hstate := (state_eq hx).trans (by rw [hs])
      have hnext := (h.tasks x t hx).nextPriority
      have hpos : 0 < (t.nextPriority : ℕ) := Nat.pos_of_ne_zero fun h => hnext (Fin.ext h)
      have hkey : ∀ key : BitVec 64, key.toNat ≤ 15 * (n + 1) + 15 →
          (t.started key).schedKey.toNat = key.toNat + t.nextPriority := by
        intro key hle
        rw [Nat.add_comm, ← toNat_priority]
        refine BitVec.toNat_add_of_lt ?_
        rw [toNat_priority]
        omega
      have hnot := hinv.not_mem_running hstate (by decide)
      have hfair : ∀ key, (t.started key).Fair := fun key =>
        ⟨hnext, fun _ => hnext, by simp [HevTask.started]⟩
      have henlist : ∀ key : BitVec 64, key = (if v.currentTask.isSome then v.minKey else 0) →
          Fair n (v.enlist x (t.started key)) ∧
            (v.currentTask ≠ none → Grows v (v.enlist x (t.started key))) := by
        intro key hif
        cases hcur : v.currentTask with
        | none =>
            rw [hcur] at hif
            have h0 : key.toNat = 0 := by
              rw [hif]
              rfl
            have hk := hkey key (by omega)
            refine ⟨(h.enlist hnot (hfair key) rfl (by omega) (fun hne => absurd hcur hne)
              fun _ => by omega).1, by simp⟩
        | some c =>
            rw [hcur] at hif
            have hk := hkey v.minKey hlow
            rw [← hcur, hif, Option.isSome_some, if_pos rfl]
            exact h.enlist hnot (hfair _) rfl (by omega) (fun _ => by omega)
              fun hnone => by simp [hcur] at hnone
      obtain ⟨hf, hg⟩ := henlist _ rfl
      exact ⟨⟨hf.tasks, hf.spread, hf.bound, hf.idle⟩, fun hcur => ⟨(hg hcur).keys, (hg hcur).list⟩⟩

end Fair

/-- The order of the tasks that were in the list has not changed. -/
structure Calm (v v' : TaskSystem (List α) α) : Prop where
  head : ∀ c, v.runningTasks.head? = some c → v'.runningTasks.head? = some c
  mem : ∀ y ∈ v.runningTasks, y ∈ v'.runningTasks
  patience : ∀ y ∈ v.runningTasks, ∀ m,
    patience m (keyOf v'.tasks) y v'.runningTasks = patience m (keyOf v.tasks) y v.runningTasks

namespace Fair

theorem edits (h : Fair n v) (hinv : ∃ ws, Inv v ws) (hn : n < 2 ^ 59)
    (he : Relation.ReflTransGen (Edit (· ≠ 0)) v v') :
    Fair n v' ∧ (v.currentTask ≠ none → Calm v v') := by
  induction he with
  | refl => exact ⟨h, fun _ => ⟨fun _ => id, fun _ => id, fun _ _ _ => rfl⟩⟩
  | tail hrest he ih =>
      obtain ⟨hf, hcalm⟩ := ih
      obtain ⟨ws, hinv'⟩ := Inv.edits hinv hrest
      obtain ⟨hf', hgrows⟩ := hf.edit hinv' hn he
      refine ⟨hf', fun hcur => ?_⟩
      have hg := hgrows (by rwa [edits_currentTask hrest])
      have hc := hcalm hcur
      refine ⟨fun c h => hg.head (hc.head c h), fun y hy => hg.mem (hc.mem y hy), ?_⟩
      intro y hy m
      rw [hg.patience hinv' (hc.mem y hy), hc.patience y hy]

theorem mono (h : Fair n v) : Fair (n + 1) v :=
  ⟨h.tasks, h.spread, h.bound.trans (by omega), h.idle⟩

/-- The keys lie above the first one of the list before. -/
theorem of_range {lo : ℕ} (htasks : ∀ x, ∀ t ∈ v.tasks x, t.Fair) (hcur : v.currentTask ≠ none)
    (hlo : lo ≤ 15 * (n + 1))
    (hrange : ∀ y ∈ v.runningTasks, lo ≤ keyOf v.tasks y ∧ keyOf v.tasks y ≤ lo + 15) :
    Fair (n + 1) v := by
  refine ⟨htasks, ?_, ?_, fun h => absurd h hcur⟩
  · intro y hy
    cases hc : v.runningTasks.head? with
    | none => simp [List.head?_eq_none_iff.mp hc] at hy
    | some c =>
        rw [minKey_of_head hc]
        exact (hrange y hy).2.trans (Nat.add_le_add_right (hrange c (List.mem_of_head? hc)).1 15)
  · exact (minKey_le_of_forall fun y hy => (hrange y hy).2).trans (by omega)

theorem switched_key (h : Fair n v) (hn : n < 2 ^ 59) (hc : v.runningTasks.head? = some x)
    (ht : v.tasks x = some t) :
    t.switched.schedKey.toNat = v.minKey.toNat + t.priority := by
  have hkey : v.minKey.toNat = t.schedKey.toNat := by
    rw [minKey_of_head hc, keyOf, ht]
    rfl
  have hb := h.bound
  rw [hkey] at hb ⊢
  have hlt : t.schedKey.toNat + (BitVec.ofNat 64 t.priority).toNat < 2 ^ 64 := by
    rw [toNat_priority]
    omega
  have hadd := BitVec.toNat_add_of_lt hlt
  rw [toNat_priority] at hadd
  exact hadd

theorem ended_fair (ht : t.Fair) : ∀ u ∈ t.ended, u.Fair := by
  intro u hu
  rw [HevTask.ended] at hu
  split_ifs at hu
  · rw [← Option.mem_some.mp hu]
    exact ⟨ht.nextPriority, by simp, by simp⟩
  · simp at hu

/-- The first task of the list gives the processor back. -/
theorem released (h : Fair n v) (hinv : Inv v ws) (hn : n < 2 ^ 59)
    (hcur : v.currentTask = some x) (hc : v.runningTasks.head? = some x) (ht : v.tasks x = some t)
    (how : Leave) : Fair (n + 1) (v.released x t how) := by
  have hfair := h.tasks x t ht
  have hrun : t.state = .running := Option.some_inj.mp
    ((state_eq ht).symm.trans ((hinv.mem_running x).mp (List.mem_of_head? hc)))
  have hne : v.currentTask ≠ none := by simp [hcur]
  have hstay : ∀ u, ∀ y ∈ v.runningTasks.erase x,
      v.minKey.toNat ≤ keyOf (v.put x u).tasks y ∧ keyOf (v.put x u).tasks y ≤ v.minKey.toNat + 15 := by
    intro u y hy
    obtain ⟨hyx, hy⟩ := hinv.nodup.mem_erase_iff.mp hy
    rw [put_tasks, keyOf_update_of_ne hyx]
    exact ⟨hinv.minKey_le hy, h.spread y hy⟩
  cases how with
  | switch =>
      refine of_range (h.tasks_put ?_) hne h.bound ?_
      · rintro u ⟨⟩
        exact ⟨hfair.nextPriority, fun _ => hfair.nextPriority, by simp [HevTask.switched, hrun]⟩
      · intro y hy
        rcases mem_enqueue.mp hy with rfl | hy
        · have hkey : keyOf (v.requeue y t.switched).tasks y = v.minKey.toNat + t.priority :=
            (keyOf_update_self ..).trans (h.switched_key hn hc ht)
          change _ ≤ keyOf (v.requeue y t.switched).tasks y ∧ keyOf (v.requeue y t.switched).tasks y ≤ _
          omega
        · exact hstay _ y hy
  | waitio =>
      refine of_range (h.tasks_put ?_) hne h.bound (hstay _)
      rintro u ⟨⟩
      refine ⟨hfair.nextPriority, by simp [HevTask.parked], fun _ => ?_⟩
      have hpos : 0 < (t.nextPriority : ℕ) :=
        Nat.pos_of_ne_zero fun h => hfair.nextPriority (Fin.ext h)
      rw [HevTask.parked, toNat_priority]
      omega
  | remove => exact of_range (h.tasks_put (ended_fair hfair)) hne h.bound (hstay _)

/-- When the first task gives the processor back, the others wait less. -/
theorem released_patience (h : Fair n v) (hinv : Inv v ws) (hn : n < 2 ^ 59)
    (hc : v.runningTasks.head? = some x) (ht : v.tasks x = some t) (how : Leave) {y : α}
    (hy : y ∈ v.runningTasks) (hyx : y ≠ x) {m : ℕ} (hm : v.runningTasks.length ≤ m) :
    y ∈ (v.released x t how).runningTasks ∧
      patience m (keyOf (v.released x t how).tasks) y (v.released x t how).runningTasks <
        patience m (keyOf v.tasks) y v.runningTasks := by
  obtain ⟨l, hl⟩ := List.head?_eq_some_iff.mp hc
  have hnd := hinv.nodup
  have hsorted := hinv.sorted
  rw [hl] at hy hm hnd hsorted
  have hxl : x ∉ l := (List.nodup_cons.mp hnd).1
  have hyl : y ∈ l := (List.mem_cons.mp hy).resolve_left hyx
  have herase : v.runningTasks.erase x = l := by rw [hl, List.erase_cons_head]
  have hother : ∀ u, ∀ z ≠ x, keyOf (v.put x u).tasks z = keyOf v.tasks z :=
    fun u z hz => keyOf_update_of_ne hz ..
  -- A task that leaves the list changes no other key.
  have htail : ∀ u, y ∈ v.runningTasks.erase x ∧
      patience m (keyOf (v.put x u).tasks) y (v.runningTasks.erase x) <
        patience m (keyOf v.tasks) y v.runningTasks := by
    intro u
    rw [herase, hl]
    refine ⟨hyl, ?_⟩
    rw [patience_congr (fun z hz => hother u z (ne_of_mem_of_not_mem hz hxl)) hyl]
    exact patience_tail hsorted hyx.symm hyl (by simp only [List.length_cons] at hm; omega)
  cases how with
  | switch =>
      have hlt : keyOf v.tasks x < keyOf (v.put x (some t.switched)).tasks x := by
        have hpos : 0 < (t.priority : ℕ) := Nat.pos_of_ne_zero fun h0 =>
          (h.tasks x t ht).priority (Option.some_inj.mp
            ((state_eq ht).symm.trans ((hinv.mem_running x).mp (List.mem_of_head? hc)))) (Fin.ext h0)
        rw [put_tasks, keyOf_update_self, h.switched_key hn hc ht, ← minKey_of_head hc]
        omega
      have hlist : (v.released x t .switch).runningTasks =
          enqueue (keyOf (v.put x (some t.switched)).tasks) x l := by
        rw [← herase]
        rfl
      rw [hlist, hl]
      exact ⟨mem_enqueue.mpr (.inr hyl),
        patience_requeue hsorted hxl hyx.symm hyl hm (hother _) hlt⟩
  | waitio => exact htail _
  | remove => exact htail _

end Fair

/-! ### Runs -/

/-- The state of a run without priority 0 after at most `n` events. -/
structure FairRun (n : ℕ) (v : TaskSystem (List α) α) : Prop where
  sound : Sound v
  fair : Fair n v
  front : ∀ c, v.currentTask = some c → v.runningTasks.head? = some c

theorem fairRun_init : FairRun 0 (init : TaskSystem (List α) α) := by
  refine ⟨sound_init, ⟨?_, ?_, ?_, ?_⟩, ?_⟩ <;>
    simp [init, ReadyQueue.empty, minKey, getMinSchedKey, ReadyQueue.first, state]

theorem Fair.picked (h : Fair n v) (hinv : Inv v ws)
    (hdone : v.runningTasks = [] → v.totalTaskCount = 0) : Fair n v.picked := by
  refine ⟨h.tasks, h.spread, h.bound, fun hcur => ?_⟩
  have hnil : v.runningTasks = [] := List.head?_eq_none_iff.mp hcur
  have htotal := hinv.total
  have hws : ws = [] := List.length_eq_zero_iff.mp (by rw [hdone hnil] at htotal; omega)
  refine ⟨fun y hy => by simp [TaskSystem.picked, hnil] at hy, fun x hx => ?_⟩
  have hmem := (hinv.mem_waiting x).mpr hx
  simp [hws] at hmem

namespace FairRun

variable {e : SchedEvent α}

theorem effect (h : FairRun n v) (hn : n < 2 ^ 59 - 1) (he : Effect (· ≠ 0) v e v') :
    FairRun (n + 1) v' := by
  obtain ⟨ws, hinv⟩ := h.sound.inv
  refine ⟨h.sound.effect he, ?_, ?_⟩
  · cases he with
    | edits _ _ hedits => exact (h.fair.edits ⟨ws, hinv⟩ (by omega) hedits).1.mono
    | start hedits hdone =>
        obtain ⟨ws', hinv'⟩ := Inv.edits ⟨ws, hinv⟩ hedits
        exact ((h.fair.edits ⟨ws, hinv⟩ (by omega) hedits).1.picked hinv' hdone).mono
    | @leave how _ _ _ _ hx hmem ht hedits hdone =>
        obtain ⟨ws', hinv'⟩ := Inv.edits (hinv.released ht hmem _) hedits
        have hf := h.fair.released hinv (by omega) hx (h.front _ hx) ht how
        exact (hf.edits (hinv.released ht hmem _) (by omega) hedits).1.picked hinv' hdone
  · cases he with
    | edits _ _ hedits =>
        intro c hc
        rw [edits_currentTask hedits] at hc
        exact ((h.fair.edits ⟨ws, hinv⟩ (by omega) hedits).2 (by simp [hc])).head c (h.front c hc)
    | start _ _ => exact fun _ => id
    | leave _ _ _ _ _ => exact fun _ => id

variable {y : α} {m : ℕ}

/-- A task in the list that is not the current one stays there, and its wait does not grow; it gets
shorter when a task gives the processor back. -/
theorem patience (h : FairRun n v) (hn : n < 2 ^ 59 - 1) (he : Effect (· ≠ 0) v e v')
    (hp : e.Possible v) (hcur : v.currentTask ≠ none) (hy : y ∈ v.runningTasks)
    (hne : v.currentTask ≠ some y) (hm : v.runningTaskCount ≤ m) :
    v'.currentTask ≠ none ∧ y ∈ v'.runningTasks ∧
      FairQueue.patience m (keyOf v'.tasks) y v'.runningTasks + (if e.isLeave then 1 else 0) ≤
        FairQueue.patience m (keyOf v.tasks) y v.runningTasks := by
  obtain ⟨ws, hinv⟩ := h.sound.inv
  cases he with
  | edits _ hleave hedits =>
      have hcalm := (h.fair.edits ⟨ws, hinv⟩ (by omega) hedits).2 hcur
      refine ⟨by rwa [edits_currentTask hedits], hcalm.mem y hy, ?_⟩
      have hnot : e.isLeave = false := by
        cases e with
        | leave how polls => exact absurd rfl (hleave how polls)
        | _ => rfl
      rw [hnot, hcalm.patience y hy]
      simp
  | start _ _ => exact absurd hp.1 hcur
  | @leave how polls x t v₁ hx hmem ht hedits hdone =>
      have hyx : y ≠ x := fun hyx => hne (hyx ▸ hx)
      have hf := h.fair.released hinv (by omega) hx (h.front x hx) ht how
      obtain ⟨hmem', hlt⟩ := h.fair.released_patience hinv (by omega) (h.front x hx) ht how hy hyx
        (m := m) (by rw [← hinv.count]; exact hm)
      have hcur' : (v.released x t how).currentTask ≠ none := by
        cases how <;> exact hcur
      have hcalm := (hf.edits (hinv.released ht hmem how) (by omega) hedits).2 hcur'
      have hin : y ∈ v₁.runningTasks := hcalm.mem y hmem'
      refine ⟨?_, hin, ?_⟩
      · intro hnone
        simp [List.head?_eq_none_iff.mp hnone] at hin
      · change FairQueue.patience m (keyOf v₁.tasks) y v₁.runningTasks + 1 ≤ _
        rw [hcalm.patience y hmem']
        exact hlt

/-- A wait is short, because the first task of the list has the smallest key and the others are at most
15 behind it. -/
theorem patience_lt (h : FairRun n v) (hy : y ∈ v.runningTasks) (hm : v.runningTaskCount ≤ m) :
    FairQueue.patience m (keyOf v.tasks) y v.runningTasks < 16 * m := by
  obtain ⟨ws, hinv⟩ := h.sound.inv
  have hspread := h.fair.spread y hy
  rw [hinv.count] at hm
  cases hl : v.runningTasks with
  | nil => simp [hl] at hy
  | cons c l =>
      rw [minKey_of_head (by rw [hl, List.head?_cons])] at hspread
      rw [hl] at hy hm
      exact FairQueue.patience_lt hy hm hspread

end FairRun

section served
variable {Q : Type} [ReadyQueue Q α] [LawfulReadyQueue Q] {s s' : TaskSystem Q α}
  {es : List (SchedEvent α)}

/-- One event of a run without priority 0, at both levels. -/
theorem FairRun.exec {e : SchedEvent α} {s₁ : TaskSystem Q α} (hr : Refines s v) (h : FairRun n v)
    (hn : n < 2 ^ 59 - 1) (hp : e.Possible s) (hok : e.Sets (· ≠ 0)) (hs₁ : s.exec e = some s₁) :
    ∃ v₁, Refines s₁ v₁ ∧ FairRun (n + 1) v₁ ∧ Effect (· ≠ 0) v e v₁ := by
  obtain ⟨s₁', v₁, hs₁', -, h₁, heff⟩ := hr.exec h.sound ((hr.possible_iff e).mp hp) hok
  obtain rfl := Option.some_inj.mp (hs₁.symm.trans hs₁')
  exact ⟨v₁, h₁, h.effect hn heff, heff⟩

theorem FairRun.runs (hr : Refines s v) (h : FairRun n v) (hn : n + es.length < 2 ^ 59)
    (hok : ∀ e ∈ es, e.Sets (· ≠ 0)) (hes : s.runs es = some s') :
    ∃ v', Refines s' v' ∧ FairRun (n + es.length) v' := by
  induction es generalizing s v n with
  | nil =>
      obtain rfl := Option.some_inj.mp hes
      exact ⟨v, hr, h⟩
  | cons e es ih =>
      rw [List.length_cons] at hn ⊢
      obtain ⟨s₁, hp, hs₁, hes⟩ := GuardedRun.runs_cons hes
      obtain ⟨v₁, hr₁, h₁, -⟩ := FairRun.exec hr h (by omega) hp (hok e List.mem_cons_self) hs₁
      obtain ⟨v', hr', h'⟩ := ih hr₁ h₁ (by omega)
        (fun e' he' => hok e' (List.mem_cons_of_mem _ he')) hes
      exact ⟨v', hr', by rwa [Nat.add_comm es.length, ← Nat.add_assoc]⟩

/-- While a task waits in the list, no more tasks give the processor back than it has patience for. -/
theorem leaves_le_patience {y : α} {m : ℕ} (hr : Refines s v) (h : FairRun n v)
    (hn : n + es.length < 2 ^ 59) (hok : ∀ e ∈ es, e.Sets (· ≠ 0)) (hes : s.runs es = some s')
    (hcur : v.currentTask ≠ none) (hy : y ∈ v.runningTasks)
    (hm : ∀ es₁ u, es₁ <+: es → s.runs es₁ = some u → u.runningTaskCount ≤ m)
    (hnever : ∀ es₁ u, es₁ <+: es → s.runs es₁ = some u → u.currentTask ≠ some y) :
    es.countP SchedEvent.isLeave ≤ patience m (keyOf v.tasks) y v.runningTasks := by
  induction es generalizing s v n with
  | nil => exact Nat.zero_le _
  | cons e es ih =>
      rw [List.length_cons] at hn
      obtain ⟨s₁, hp, hs₁, hes⟩ := GuardedRun.runs_cons hes
      obtain ⟨v₁, hr₁, h₁, heff⟩ := FairRun.exec hr h (by omega) hp (hok e List.mem_cons_self) hs₁
      have hcount := hm [] s (List.nil_prefix) rfl
      have hcurrent := hnever [] s (List.nil_prefix) rfl
      rw [hr.count] at hcount
      rw [hr.current] at hcurrent
      obtain ⟨hcur₁, hy₁, hle⟩ := h.patience (by omega) heff ((hr.possible_iff e).mp hp) hcur hy
        hcurrent hcount
      have hrest := ih hr₁ h₁ (by omega) (fun e' he' => hok e' (List.mem_cons_of_mem _ he')) hes
        hcur₁ hy₁
        (GuardedRun.forall_prefix_of_cons hp hs₁ hm) (GuardedRun.forall_prefix_of_cons hp hs₁ hnever)
      rw [List.countP_cons]
      omega

/-- If there are never more than `m` tasks that can run, each of them runs by the time `16 * m` tasks
have given the processor back. -/
theorem served_of_leaves {es₀ : List (SchedEvent α)} {y : α} {m : ℕ}
    (h₀ : (init : TaskSystem Q α).runs es₀ = some s) (hes : s.runs es = some s')
    (hlen : es₀.length + es.length < 2 ^ 59) (hok : ∀ e ∈ es₀ ++ es, e.Sets (· ≠ 0))
    (hcur : s.currentTask ≠ none) (hy : s.state y = some .running)
    (hm : ∀ es₁ u, es₁ <+: es → s.runs es₁ = some u → u.runningTaskCount ≤ m)
    (hleaves : 16 * m ≤ es.countP SchedEvent.isLeave) :
    ∃ es₁ u, es₁ <+: es ∧ s.runs es₁ = some u ∧ u.currentTask = some y := by
  obtain ⟨v, hr, h⟩ := FairRun.runs Refines.init fairRun_init (by omega)
    (fun e he => hok e (List.mem_append_left _ he)) h₀
  rw [Nat.zero_add] at h
  obtain ⟨ws, hinv⟩ := h.sound.inv
  have hyv : y ∈ v.runningTasks := by
    rw [hinv.mem_running, state, ← hr.tasks]
    exact hy
  by_contra hnone
  push Not at hnone
  have hle := leaves_le_patience hr h hlen (fun e he => hok e (List.mem_append_right _ he)) hes
    (by rwa [← hr.current]) hyv hm hnone
  have hcount := hm [] s List.nil_prefix rfl
  rw [hr.count] at hcount
  have hlt := h.patience_lt hyv hcount
  omega

end served

end TaskSystem

end HevTunnel
