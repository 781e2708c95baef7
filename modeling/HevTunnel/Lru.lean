import Mathlib.Data.Finset.Card
import Mathlib.Data.Finset.Option
import Mathlib.Data.List.Nodup
import Mathlib.Data.List.Perm.Basic
import Mathlib.Data.List.Range

/-! # Least-recently-used slot assignment

A cache of at most `max` names, each holding a slot, ordered by recency (oldest first).  A
name that is not cached takes the next unused slot, or, when the cache is full, the slot of
the oldest name, which is forgotten.  Finding a name, and looking up a slot that is taken,
make the name the most recent one.

* `WF max c` is the invariant: names are distinct and the slots are exactly those below the
  size, each once.  Every step keeps it (`WF.step`).
* `Recent s i T c` says that `s` holds slot `i` and every younger name lies in `T`.  A step
  keeps it with the names it touches added to `T`, as long as fewer than `max` of them differ
  from `s` (`Recent.step`): a full cache then still has a name older than `s`, and that one is
  forgotten instead.

The run lemma is `Recent.run`. -/

namespace HevTunnel
namespace Lru

/-- Names with their slots, oldest first. -/
abbrev Cache (κ : Type) := List (κ × ℕ)

/-- Distinct names hold the slots below the size of the cache. -/
structure WF {κ : Type} (max : ℕ) (c : Cache κ) : Prop where
  names : (c.map Prod.fst).Nodup
  slots : (c.map Prod.snd).Perm (List.range c.length)
  size : c.length ≤ max

section wf
variable {κ : Type} {max : ℕ} {c : Cache κ}

theorem WF.nil (max : ℕ) : WF max ([] : Cache κ) := ⟨by simp, by simp, by simp⟩

theorem WF.slots_nodup (h : WF max c) : (c.map Prod.snd).Nodup :=
  h.slots.nodup_iff.mpr List.nodup_range

theorem WF.slot_lt (h : WF max c) {e : κ × ℕ} (he : e ∈ c) : e.2 < c.length :=
  List.mem_range.mp (h.slots.mem_iff.mp (List.mem_map_of_mem he))

/-- Every slot below the size is taken. -/
theorem WF.exists_of_lt (h : WF max c) {i : ℕ} (hi : i < c.length) : ∃ k, (k, i) ∈ c := by
  have : i ∈ c.map Prod.snd := h.slots.mem_iff.mpr (List.mem_range.mpr hi)
  obtain ⟨⟨k, j⟩, hk, rfl⟩ := List.mem_map.mp this
  exact ⟨k, hk⟩

theorem WF.of_perm {c' : Cache κ} (h : WF max c) (hp : c'.Perm c) : WF max c' where
  names := (hp.map _).nodup_iff.mpr h.names
  slots := by rw [hp.length_eq]; exact (hp.map _).trans h.slots
  size := hp.length_eq ▸ h.size

/-- An unused name with the next slot. -/
theorem WF.append (h : WF max c) {k : κ} (hk : k ∉ c.map Prod.fst) (hc : c.length < max) :
    WF max (c ++ [(k, c.length)]) where
  names := by
    rw [List.map_append, List.nodup_append]
    refine ⟨h.names, by simp, ?_⟩
    rintro a ha b hb rfl
    simp only [List.map_cons, List.map_nil, List.mem_singleton] at hb
    exact hk (hb ▸ ha)
  slots := by
    simp only [List.map_append, List.map_cons, List.map_nil, List.length_append,
      List.length_cons, List.length_nil, Nat.zero_add, List.range_succ]
    exact h.slots.append_right _
  size := by simp; omega

/-- An unused name with the slot of the oldest one. -/
theorem WF.replace {e : κ × ℕ} (h : WF max (e :: c)) {k : κ} (hk : k ∉ c.map Prod.fst) :
    WF max (c ++ [(k, e.2)]) where
  names := by
    rw [List.map_append, List.nodup_append]
    refine ⟨(List.nodup_cons.mp h.names).2, by simp, ?_⟩
    rintro a ha b hb rfl
    simp only [List.map_cons, List.map_nil, List.mem_singleton] at hb
    exact hk (hb ▸ ha)
  slots := by
    have h' := h.slots
    simp only [List.map_cons, List.length_cons] at h'
    simp only [List.map_append, List.map_cons, List.map_nil, List.length_append,
      List.length_cons, List.length_nil, Nat.zero_add]
    exact List.perm_append_comm.trans h'
  size := by simpa using h.size

/-- `s` holds slot `i`, and every younger name lies in `T`. -/
def Recent (s : κ) (i : ℕ) (T : Finset κ) (c : Cache κ) : Prop :=
  ∃ a b, c = a ++ (s, i) :: b ∧ ∀ e ∈ b, e.1 ∈ T

theorem Recent.mem {s : κ} {i : ℕ} {T : Finset κ} (h : Recent s i T c) : (s, i) ∈ c := by
  obtain ⟨a, b, rfl, -⟩ := h
  simp

theorem Recent.mono {s : κ} {i : ℕ} {T T' : Finset κ} (h : Recent s i T c) (hT : T ⊆ T') :
    Recent s i T' c := by
  obtain ⟨a, b, hc, hb⟩ := h
  exact ⟨a, b, hc, fun e he => hT (hb e he)⟩

end wf

variable {κ : Type} [DecidableEq κ]

/-- Make an entry the most recent one. -/
def touch (c : Cache κ) (e : κ × ℕ) : Cache κ := c.erase e ++ [e]

/-- A name that is not cached yet. -/
def miss (max : ℕ) (c : Cache κ) (k : κ) : Cache κ × ℕ :=
  if c.length < max then (c ++ [(k, c.length)], c.length)
  else
    match c with
    | [] => ([], 0)
    | e :: rest => (rest ++ [(k, e.2)], e.2)

/-- The slot of a name, assigning one if it has none. -/
def find (max : ℕ) (c : Cache κ) (k : κ) : Cache κ × ℕ :=
  match c.find? (fun e => e.1 = k) with
  | some e => (touch c e, e.2)
  | none => miss max c k

/-- The name that holds a slot. -/
def lookup (c : Cache κ) (i : ℕ) : Cache κ × Option κ :=
  match c.find? (fun e => e.2 = i) with
  | some e => (touch c e, some e.1)
  | none => (c, none)

inductive Op (κ : Type) where
  | find (k : κ)
  | lookup (i : ℕ)

def step (max : ℕ) (c : Cache κ) : Op κ → Cache κ
  | .find k => (find max c k).1
  | .lookup i => (lookup c i).1

/-- The names an operation makes the most recent one. -/
def touched (c : Cache κ) : Op κ → Finset κ
  | .find k => {k}
  | .lookup i => (lookup c i).2.toFinset

def run (max : ℕ) (c : Cache κ) : List (Op κ) → Cache κ
  | [] => c
  | op :: ops => run max (step max c op) ops

/-- The names a run makes the most recent one at some time. -/
def touchedBy (max : ℕ) (c : Cache κ) : List (Op κ) → Finset κ
  | [] => ∅
  | op :: ops => touched c op ∪ touchedBy max (step max c op) ops

/-! ### One step -/

section step
variable {max : ℕ} {c : Cache κ}

theorem touch_perm {e : κ × ℕ} (he : e ∈ c) : (touch c e).Perm c :=
  List.perm_append_comm.trans (List.perm_cons_erase he).symm

/-- Searching by a key that tells the members apart finds the member with that key. -/
theorem find?_key {β ι : Type} [DecidableEq ι] {l : List β} {key : β → ι}
    (hn : (l.map key).Nodup) {x : β} (hx : x ∈ l) : l.find? (fun y => key y = key x) = some x := by
  obtain ⟨y, hy⟩ : ∃ y, l.find? (fun y => key y = key x) = some y :=
    Option.isSome_iff_exists.mp (List.find?_isSome.mpr ⟨x, hx, by simp⟩)
  have h₁ := List.mem_of_find?_eq_some hy
  have h₂ := List.find?_some hy
  rw [hy, List.inj_on_of_nodup_map hn h₁ hx (by simpa using h₂)]

/-- A cached name is found with its slot. -/
theorem WF.find_mem (h : WF max c) {e : κ × ℕ} (he : e ∈ c) :
    find max c e.1 = (touch c e, e.2) := by
  unfold find
  rw [find?_key h.names he]

theorem find?_notMem {k : κ} (hk : k ∉ c.map Prod.fst) : c.find? (fun e => e.1 = k) = none := by
  rw [List.find?_eq_none]
  intro e he
  simp only [decide_eq_true_eq]
  rintro rfl
  exact hk (List.mem_map_of_mem he)

theorem find_notMem {k : κ} (hk : k ∉ c.map Prod.fst) : find max c k = miss max c k := by
  unfold find
  rw [find?_notMem hk]

/-- A taken slot is looked up with its name. -/
theorem WF.lookup_mem (h : WF max c) {e : κ × ℕ} (he : e ∈ c) :
    lookup c e.2 = (touch c e, some e.1) := by
  unfold lookup
  rw [find?_key h.slots_nodup he]

/-- A slot that is not below the size is free. -/
theorem WF.lookup_ge (h : WF max c) {i : ℕ} (hi : c.length ≤ i) : lookup c i = (c, none) := by
  unfold lookup
  rw [List.find?_eq_none.mpr]
  intro e he
  have := h.slot_lt he
  simp only [decide_eq_true_eq]
  omega

/-- What a step can do: nothing, touch an entry, append a new name, or replace the oldest. -/
theorem WF.step_cases (h : WF max c) (hmax : 0 < max) (op : Op κ) :
    (step max c op = c ∧ touched c op = ∅) ∨
    (∃ e ∈ c, step max c op = touch c e ∧ touched c op = {e.1}) ∨
    (∃ k, k ∉ c.map Prod.fst ∧ c.length < max ∧ step max c op = c ++ [(k, c.length)] ∧
      touched c op = {k}) ∨
    (∃ k e rest, k ∉ c.map Prod.fst ∧ c = e :: rest ∧ max ≤ c.length ∧
      step max c op = rest ++ [(k, e.2)] ∧ touched c op = {k}) := by
  cases op with
  | find k =>
      by_cases hk : k ∈ c.map Prod.fst
      · obtain ⟨e, he, rfl⟩ := List.mem_map.mp hk
        exact .inr (.inl ⟨e, he, by simp [step, h.find_mem he], rfl⟩)
      · simp only [step, find_notMem hk, miss, touched]
        split_ifs with hc
        · exact .inr (.inr (.inl ⟨k, hk, hc, rfl, rfl⟩))
        · cases c with
          | nil => simp at hc; omega
          | cons e rest => exact .inr (.inr (.inr ⟨k, e, rest, hk, rfl, by omega, rfl, rfl⟩))
  | lookup i =>
      by_cases hi : i < c.length
      · obtain ⟨k, hk⟩ := h.exists_of_lt hi
        have := h.lookup_mem hk
        exact .inr (.inl ⟨(k, i), hk, by simp [step, this], by simp [touched, this]⟩)
      · have := h.lookup_ge (i := i) (by omega)
        exact .inl ⟨by simp [step, this], by simp [touched, this]⟩

/-- Every step keeps the invariant. -/
theorem WF.step (h : WF max c) (hmax : 0 < max) (op : Op κ) : WF max (Lru.step max c op) := by
  obtain ⟨hs, -⟩ | ⟨e, he, hs, -⟩ | ⟨k, hk, hc, hs, -⟩ | ⟨k, e, rest, hk, rfl, -, hs, -⟩ :=
    h.step_cases hmax op <;> rw [hs]
  · exact h
  · exact h.of_perm (touch_perm he)
  · exact h.append hk hc
  · exact h.replace (fun h' => hk (List.mem_cons_of_mem _ h'))

end step

/-! ### Survival -/

section recent
variable {max : ℕ} {c : Cache κ} {s : κ} {i : ℕ} {T : Finset κ}

/-- Distinct names of `T` other than `s` are no more than `T` without `s` has. -/
theorem length_le_card_erase {l : List κ} (hn : l.Nodup) (hs : s ∉ l) (hl : ∀ k ∈ l, k ∈ T) :
    l.length ≤ (T.erase s).card := by
  rw [← List.toFinset_card_of_nodup hn]
  apply Finset.card_le_card
  intro k hk
  rw [List.mem_toFinset] at hk
  rw [Finset.mem_erase]
  exact ⟨fun hks => hs (hks ▸ hk), hl k hk⟩

/-- An entry behind younger ones. -/
theorem younger_append {b : Cache κ} (hb : ∀ x ∈ b, x.1 ∈ T) (e : κ × ℕ) :
    ∀ x ∈ b ++ [e], x.1 ∈ T ∪ {e.1} := by
  intro x hx
  rcases List.mem_append.mp hx with hx | hx
  · exact Finset.mem_union_left _ (hb x hx)
  · rw [List.mem_singleton.mp hx]
    exact Finset.mem_union_right _ (Finset.mem_singleton_self _)

/-- Touching an entry leaves at most that entry as a new younger one. -/
theorem Recent.touch (h : Recent s i T c) (e : κ × ℕ) :
    Recent s i (T ∪ {e.1}) (Lru.touch c e) := by
  obtain ⟨a, b, rfl, hb⟩ := h
  unfold Lru.touch
  by_cases hs : e = (s, i)
  · subst hs
    exact ⟨_, [], rfl, by simp⟩
  · by_cases ha : e ∈ a
    · refine ⟨a.erase e, b ++ [e], ?_, younger_append hb e⟩
      rw [List.erase_append_left _ ha]
      simp
    · refine ⟨a, b.erase e ++ [e], ?_, younger_append (fun x hx => hb x (List.mem_of_mem_erase hx)) e⟩
      rw [List.erase_append_right _ ha, List.erase_cons_tail (by simpa using Ne.symm hs)]
      simp

/-- A step that touches few enough names does not displace `s`. -/
theorem Recent.step (h : Recent s i T c) (hwf : WF max c) (hmax : 0 < max) (op : Op κ)
    (hT : ((T ∪ touched c op).erase s).card < max) :
    Recent s i (T ∪ touched c op) (Lru.step max c op) := by
  obtain ⟨hs, ht⟩ | ⟨e, he, hs, ht⟩ | ⟨k, hk, -, hs, ht⟩ | ⟨k, e, rest, hk, hc, hfull, hs, ht⟩ :=
    hwf.step_cases hmax op <;> rw [ht] at hT ⊢ <;> rw [hs]
  · exact h.mono Finset.subset_union_left
  · exact h.touch e
  · obtain ⟨a, b, rfl, hb⟩ := h
    exact ⟨a, b ++ [(k, _)], by simp; rfl, younger_append hb _⟩
  · obtain ⟨a, b, rfl, hb⟩ := h
    cases a with
    | nil =>
        -- `s` would be the oldest: then `k` and the younger names already count `max` names
        exfalso
        have hn := hwf.names
        simp only [List.nil_append, List.map_cons, List.nodup_cons, List.mem_cons, not_or] at hn hk
        have hle : (k :: b.map Prod.fst).length ≤ ((T ∪ {k}).erase s).card := by
          apply length_le_card_erase
          · exact List.nodup_cons.mpr ⟨hk.2, hn.2⟩
          · intro h'
            rcases List.mem_cons.mp h' with h' | h'
            · exact hk.1 h'.symm
            · exact hn.1 h'
          · intro x hx
            rcases List.mem_cons.mp hx with rfl | hx
            · simp
            · obtain ⟨e, he, rfl⟩ := List.mem_map.mp hx
              exact Finset.mem_union_left _ (hb e he)
        simp only [List.nil_append, List.length_cons, List.length_map] at hfull hle
        omega
    | cons e' a =>
        simp only [List.cons_append, List.cons.injEq] at hc
        obtain ⟨rfl, rfl⟩ := hc
        exact ⟨a, b ++ [(k, e'.2)], by simp, younger_append hb _⟩

/-- A run that touches few enough names does not displace `s`. -/
theorem Recent.run (h : Recent s i T c) (hwf : WF max c) (hmax : 0 < max) (ops : List (Op κ))
    (hT : ((T ∪ touchedBy max c ops).erase s).card < max) :
    Recent s i (T ∪ touchedBy max c ops) (Lru.run max c ops) := by
  induction ops generalizing c T with
  | nil => simpa [touchedBy, Lru.run] using h
  | cons op ops ih =>
      simp only [touchedBy, Lru.run, ← Finset.union_assoc] at hT ⊢
      apply ih _ (hwf.step hmax op) hT
      apply h.step hwf hmax op
      refine lt_of_le_of_lt (Finset.card_le_card ?_) hT
      exact Finset.erase_subset_erase _ Finset.subset_union_left

/-- Right after it was found, a name is the most recent one. -/
theorem find_recent (h : WF max c) (hmax : 0 < max) (s : κ) :
    Recent s (Lru.find max c s).2 ∅ (Lru.find max c s).1 := by
  by_cases hs : s ∈ c.map Prod.fst
  · obtain ⟨e, he, rfl⟩ := List.mem_map.mp hs
    rw [h.find_mem he]
    exact ⟨c.erase e, [], rfl, by simp⟩
  · rw [find_notMem hs]
    unfold miss
    split_ifs with hc
    · exact ⟨c, [], rfl, by simp⟩
    · cases c with
      | nil => simp at hc; omega
      | cons e rest => exact ⟨rest, [], rfl, by simp⟩

end recent

end Lru
end HevTunnel
