import HevTunnel.SliceAllocator
import Mathlib.Algebra.BigOperators.Fin
import Mathlib.Data.Set.Card

/-! # The blocks that the slice allocator keeps

`Cached s L` says that the allocator keeps the blocks `L i` of each size `i`: their links, the list of
sizes and the counter agree.  There is one lemma for each of the three changes: a block is taken for a
request, a block is given back to the system, and a block is kept. -/

namespace HevTunnel

open LinkedStack

/-! ### The list of sizes -/

namespace LinkedList

variable {α : Type*} {l : LinkedList α} {P Q : α → Prop} {x : α}

/-- The nodes of the list are those with the property. -/
def Listed (l : LinkedList α) (P : α → Prop) : Prop := ∃ xs, l.Links xs ∧ ∀ x, x ∈ xs ↔ P x

theorem Listed.congr (h : l.Listed P) (hiff : ∀ x, P x ↔ Q x) : l.Listed Q := by
  obtain ⟨xs, hl, hxs⟩ := h
  exact ⟨xs, hl, fun x => (hxs x).trans (hiff x)⟩

/-- The list has a last node unless it is empty. -/
theorem Listed.tail (h : l.Listed P) (hx : P x) : ∃ y, l.tail = some y ∧ P y := by
  obtain ⟨xs, hl, hxs⟩ := h
  have hne : xs ≠ [] := List.ne_nil_of_mem ((hxs x).mpr hx)
  refine ⟨xs.getLast hne, ?_, (hxs _).mp (List.getLast_mem hne)⟩
  rw [hl.tail, List.getLast?_eq_some_getLast hne]

section
variable [DecidableEq α]

theorem Listed.lruInsert (h : l.Listed P) (hx : ¬P x) :
    (l.lruInsert x).Listed fun y => y = x ∨ P y := by
  obtain ⟨xs, hl, hxs⟩ := h
  exact ⟨x :: xs, hl.lruInsert (by rwa [hxs]), fun y => by rw [List.mem_cons, hxs]⟩

theorem Listed.lruRemove (h : l.Listed P) (hx : P x) :
    (l.lruRemove x).Listed fun y => y ≠ x ∧ P y := by
  obtain ⟨xs, hl, hxs⟩ := h
  obtain ⟨a, b, rfl⟩ := List.append_of_mem ((hxs x).mpr hx)
  have hnd : x ∉ a ++ b := (List.nodup_cons.mp (List.nodup_middle.mp hl.nodup)).1
  refine ⟨a ++ b, hl.lruRemove, fun y => ?_⟩
  simp only [← hxs]
  constructor
  · intro hy
    refine ⟨ne_of_mem_of_not_mem hy hnd, ?_⟩
    simp only [List.mem_append, List.mem_cons] at hy ⊢
    tauto
  · rintro ⟨hne, hy⟩
    simp only [List.mem_append, List.mem_cons, hne, false_or] at hy ⊢
    exact hy

end

end LinkedList

namespace SliceAllocator

variable {α : Type} {s : SliceAllocator α} {L : Fin 64 → List α} {i j : Fin 64} {a : α} {ys : List α}

/-- The number of blocks that are kept. -/
def kept (L : Fin 64 → List α) : ℕ := ∑ i, (L i).length

theorem kept_update (L : Fin 64 → List α) (i : Fin 64) (ys : List α) :
    kept (Function.update L i ys) + (L i).length = kept L + ys.length := by
  have hnew := Finset.add_sum_erase Finset.univ
    (fun j => (Function.update L i ys j).length) (Finset.mem_univ i)
  have hold := Finset.add_sum_erase Finset.univ (fun j => (L j).length) (Finset.mem_univ i)
  have hrest : ∑ j ∈ Finset.univ.erase i, (Function.update L i ys j).length =
      ∑ j ∈ Finset.univ.erase i, (L j).length := by
    refine Finset.sum_congr rfl fun j hj => ?_
    rw [Function.update_of_ne (Finset.ne_of_mem_erase hj)]
  simp only [Function.update_self] at hnew
  unfold kept
  omega

/-- The blocks that are kept. -/
def blocks (L : Fin 64 → List α) : Set α := {a | ∃ i, a ∈ L i}

theorem blocks_link (L : Fin 64 → List α) (i : Fin 64) (a : α) :
    blocks (Function.update L i (a :: L i)) = insert a (blocks L) := by
  ext b
  simp only [blocks, Set.mem_ofPred_eq, Set.mem_insert_iff]
  constructor
  · rintro ⟨j, hj⟩
    by_cases hji : j = i
    · subst hji
      rw [Function.update_self, List.mem_cons] at hj
      exact hj.imp_right fun hb => ⟨j, hb⟩
    · rw [Function.update_of_ne hji] at hj
      exact Or.inr ⟨j, hj⟩
  · rintro (rfl | ⟨j, hj⟩)
    · exact ⟨i, by simp⟩
    · refine ⟨j, ?_⟩
      by_cases hji : j = i
      · subst hji
        simp [hj]
      · simpa [hji] using hj

/-- The allocator keeps the blocks `L i` of each size. -/
structure Cached (s : SliceAllocator α) (L : Fin 64 → List α) : Prop where
  chain : ∀ i, Chain s.next (s.cachedMslices i) (L i)
  index : ∀ i, ∀ a ∈ L i, ∃ slice, s.heap a = some slice ∧ slice.index = some i
  nodup : ∀ i, (L i).Nodup
  lru : s.lru.Listed fun i => L i ≠ []
  count : s.cachedCount.toNat = kept L

namespace Cached

theorem new (node : Fin 64 → ListNode (Fin 64)) : (new node : SliceAllocator α).Cached fun _ => [] :=
  ⟨fun _ => rfl, by simp, by simp, ⟨[], LinkedList.Links.empty node, by simp⟩,
    by simp [SliceAllocator.new, kept]⟩

/-- A block is of one size. -/
theorem eq_of_mem (h : s.Cached L) (hi : a ∈ L i) (hj : a ∈ L j) : i = j := by
  obtain ⟨slice, hslice, hindex⟩ := h.index i a hi
  obtain ⟨slice', hslice', hindex'⟩ := h.index j a hj
  rw [hslice] at hslice'
  obtain rfl := Option.some_inj.mp hslice'
  exact Option.some_inj.mp (hindex.symm.trans hindex')

/-- The first block of a size. -/
theorem first (h : s.Cached L) (hL : L i = a :: ys) :
    s.cachedMslices i = some a ∧ s.next a = some ys.head? ∧ Chain s.next ys.head? ys := by
  have hchain := h.chain i
  rw [hL] at hchain
  obtain ⟨hfirst, q, hq, hrest⟩ := hchain
  obtain rfl := hrest.head?_eq
  exact ⟨hfirst, hq, hrest⟩

/-- The first block of a size is in no other list, and not twice in its own. -/
theorem blocks_unlink (h : s.Cached L) (hL : L i = a :: ys) :
    blocks (Function.update L i ys) = blocks L \ {a} := by
  have hnd := h.nodup i
  rw [hL, List.nodup_cons] at hnd
  ext b
  simp only [blocks, Set.mem_ofPred_eq, Set.mem_sdiff, Set.mem_singleton_iff]
  constructor
  · rintro ⟨j, hj⟩
    by_cases hji : j = i
    · subst hji
      rw [Function.update_self] at hj
      exact ⟨⟨j, hL ▸ List.mem_cons_of_mem _ hj⟩, ne_of_mem_of_not_mem hj hnd.1⟩
    · rw [Function.update_of_ne hji] at hj
      refine ⟨⟨j, hj⟩, ?_⟩
      rintro rfl
      exact hji (h.eq_of_mem hj (hL ▸ List.mem_cons_self))
  · rintro ⟨⟨j, hj⟩, hba⟩
    refine ⟨j, ?_⟩
    by_cases hji : j = i
    · subst hji
      rw [hL, List.mem_cons] at hj
      simpa using hj.resolve_left hba
    · simpa [hji] using hj

theorem encard_blocks (h : s.Cached L) : (blocks L).encard = kept L := by
  classical
  have hset : blocks L = ↑(Finset.univ.biUnion fun i => (L i).toFinset) := by
    ext b
    simp [blocks]
  have hdisj : ((Finset.univ : Finset (Fin 64)) : Set (Fin 64)).PairwiseDisjoint
      fun i => (L i).toFinset := by
    intro i _ j _ hij
    refine Finset.disjoint_left.mpr fun b hi hj => hij ?_
    exact h.eq_of_mem (List.mem_toFinset.mp hi) (List.mem_toFinset.mp hj)
  rw [hset, Set.encard_coe_eq_coe_finsetCard, Finset.card_biUnion hdisj]
  exact congrArg _ (Finset.sum_congr rfl fun i _ => List.toFinset_card_of_nodup (h.nodup i))

/-- The list of sizes when a block that is taken is the last one of its size. -/
theorem lru_remove (h : s.Cached L) (hL : L i = [a]) :
    (s.lru.lruRemove i).Listed fun j => Function.update L i [] j ≠ [] := by
  refine (h.lru.lruRemove (x := i) (by simp [hL])).congr fun j => ?_
  by_cases hj : j = i
  · simp [hj]
  · simp [hj]

/-- The first block of a size is no longer in its list. -/
theorem unlink (h : s.Cached L) (hL : L i = a :: ys) {lru : LinkedList (Fin 64)}
    (hlru : lru.Listed fun j => Function.update L i ys j ≠ []) :
    Cached { s.unlink i ys.head? with lru := lru } (Function.update L i ys) := by
  have hcount := kept_update L i ys
  rw [hL, List.length_cons, ← h.count] at hcount
  have hsub : ∀ j, ∀ b ∈ Function.update L i ys j, b ∈ L j := by
    intro j b hb
    by_cases hj : j = i
    · subst hj
      rw [Function.update_self] at hb
      rw [hL]
      exact List.mem_cons_of_mem _ hb
    · rwa [Function.update_of_ne hj] at hb
  refine ⟨fun j => ?_, fun j b hb => h.index j b (hsub j b hb), fun j => ?_, hlru, ?_⟩
  · change Chain s.next (Function.update s.cachedMslices i ys.head? j) (Function.update L i ys j)
    by_cases hj : j = i
    · subst hj
      simpa using (h.first hL).2.2
    · simpa [hj] using h.chain j
  · by_cases hj : j = i
    · subst hj
      have hnd := h.nodup j
      rw [hL] at hnd
      simpa using hnd.of_cons
    · simpa [hj] using h.nodup j
  · have hlt := s.cachedCount.isLt
    simp only [SliceAllocator.unlink]
    rw [BitVec.toNat_sub_of_le (by simp [BitVec.le_def]; omega)]
    simp
    omega

/-- The block that answers a request. -/
theorem take (h : s.Cached L) (hL : L i = a :: ys) :
    Cached
      (if ys.head? = none then { s.unlink i ys.head? with lru := s.lru.lruRemove i }
        else { s.unlink i ys.head? with lru := (s.lru.lruRemove i).lruInsert i })
      (Function.update L i ys) := by
  cases ys with
  | nil => exact h.unlink hL (h.lru_remove hL)
  | cons b ys =>
      refine h.unlink hL (((h.lru.lruRemove (x := i) (by simp [hL])).lruInsert (by simp)).congr fun j => ?_)
      by_cases hj : j = i
      · simp [hj]
      · simp [hj]

section operations
variable [DecidableEq α]

/-- The blocks that are not kept do not matter. -/
theorem write (h : s.Cached L) (ha : a ∉ blocks L) (b : Option (MemorySlice α)) :
    Cached { s with heap := Function.update s.heap a b } L := by
  have hheap : ∀ i, ∀ c ∈ L i, Function.update s.heap a b c = s.heap c :=
    fun i c hc => Function.update_of_ne (ne_of_mem_of_not_mem hc fun hi => ha ⟨i, hi⟩) ..
  refine ⟨fun i => (h.chain i).congr fun c hc => ?_, fun i c hc => ?_, h.nodup, h.lru, h.count⟩
  · simp only [SliceAllocator.next, hheap i c hc]
  · obtain ⟨slice, hslice, hindex⟩ := h.index i c hc
    exact ⟨slice, (hheap i c hc).trans hslice, hindex⟩

/-- The block that is given back to the system. -/
theorem evict (h : s.Cached L) (hpos : 0 < kept L) :
    ∃ i a ys s', L i = a :: ys ∧ s.evict = some s' ∧ s'.Cached (Function.update L i ys) ∧
      s'.heap = Function.update s.heap a none := by
  obtain ⟨j, -, hj⟩ := Finset.exists_ne_zero_of_sum_ne_zero hpos.ne'
  obtain ⟨i, htail, hi⟩ := h.lru.tail (x := j) (by simpa using hj)
  obtain ⟨a, ys, hL⟩ := List.exists_cons_of_ne_nil hi
  obtain ⟨hfirst, hnext, -⟩ := h.first hL
  have hgone : a ∉ blocks (Function.update L i ys) := by simp [h.blocks_unlink hL]
  refine ⟨i, a, ys, _, hL, by simp [SliceAllocator.evict, htail, hfirst, hnext]; rfl, ?_, ?_⟩
  · refine Cached.write ?_ hgone none
    cases ys with
    | nil => exact h.unlink hL (h.lru_remove hL)
    | cons b ys =>
        refine h.unlink hL (h.lru.congr fun j => ?_)
        by_cases hji : j = i
        · simp [hji, hL]
        · simp [hji]
  · split_ifs <;> rfl

/-- A block that is kept from now on. -/
theorem link (h : s.Cached L) {slice : MemorySlice α} (hslice : s.heap a = some slice)
    (hindex : slice.index = some i) (hnew : a ∉ blocks L) (hbound : kept L < 1000) :
    ∃ s', s.link i a = some s' ∧ s'.Cached (Function.update L i (a :: L i)) ∧
      s'.heap = Function.update s.heap a (some { slice with next := s.cachedMslices i }) := by
  have hkept := h.write hnew (some { slice with next := s.cachedMslices i })
  have hcount := kept_update L i (a :: L i)
  rw [List.length_cons, ← h.count] at hcount
  have hlru : LinkedList.Listed (if s.cachedMslices i = none then s.lru.lruInsert i else s.lru)
      fun j => Function.update L i (a :: L i) j ≠ [] := by
    have hfirst : s.cachedMslices i = none ↔ L i = [] := by
      rw [(h.chain i).head?_eq, List.head?_eq_none_iff]
    split_ifs with hempty
    · refine (h.lru.lruInsert (x := i) (by simpa using hfirst.mp hempty)).congr fun j => ?_
      by_cases hj : j = i
      · simp [hj]
      · simp [hj]
    · refine h.lru.congr fun j => ?_
      by_cases hj : j = i
      · simp [hj, ← hfirst, hempty]
      · simp [hj]
  refine ⟨{ s with
    heap := Function.update s.heap a (some { slice with next := s.cachedMslices i })
    cachedMslices := Function.update s.cachedMslices i (some a)
    cachedCount := s.cachedCount + 1
    lru := if s.cachedMslices i = none then s.lru.lruInsert i else s.lru }, ?_, ?_, rfl⟩
  · simp only [SliceAllocator.link, hslice]
    by_cases hempty : s.cachedMslices i = none
    · simp [hempty]
    · simp [hempty]
  · refine ⟨fun j => ?_, fun j b hb => ?_, fun j => ?_, hlru, ?_⟩
    · by_cases hj : j = i
      · subst hj
        simp only [Function.update_self]
        exact ⟨rfl, _, by simp [SliceAllocator.next], hkept.chain j⟩
      · simp only [Function.update_of_ne hj]
        exact hkept.chain j
    · by_cases hj : j = i
      · subst hj
        rw [Function.update_self] at hb
        rcases List.mem_cons.mp hb with rfl | hb
        · exact ⟨_, Function.update_self .., hindex⟩
        · exact hkept.index j b hb
      · rw [Function.update_of_ne hj] at hb
        exact hkept.index j b hb
    · by_cases hj : j = i
      · subst hj
        simpa using ⟨fun hj => hnew ⟨j, hj⟩, h.nodup j⟩
      · simpa [hj] using h.nodup j
    · have hc := h.count
      simp only
      rw [BitVec.toNat_add_of_lt (by simp; omega)]
      simp
      omega

end operations

end Cached

/-! ### The end of the allocator -/

section destroy
variable [DecidableEq α]

/-- The inner loop frees the blocks of one size. -/
theorem freeSlices_eq {heap : α → Option (MemorySlice α)} {p : Option α} {fuel : ℕ}
    (h : Chain (fun a => (heap a).map MemorySlice.next) p ys) (hnd : ys.Nodup) (hfuel : ys.length ≤ fuel) :
    freeSlices fuel heap p = some fun a => if a ∈ ys then none else heap a := by
  induction ys generalizing heap p fuel with
  | nil =>
      obtain rfl := h
      simp [freeSlices]
  | cons a ys ih =>
      obtain ⟨rfl, q, hq, hrest⟩ := h
      obtain ⟨slice, hslice, rfl⟩ := Option.map_eq_some_iff.mp hq
      obtain ⟨ha, hnd⟩ := List.nodup_cons.mp hnd
      obtain ⟨fuel, rfl⟩ := Nat.exists_eq_succ_of_ne_zero (Nat.ne_of_gt (Nat.lt_of_lt_of_le (by simp) hfuel))
      have hrest' : Chain (fun b => (Function.update heap a none b).map MemorySlice.next) slice.next ys :=
        hrest.congr fun b hb => by rw [Function.update_of_ne (ne_of_mem_of_not_mem hb ha)]
      rw [freeSlices, hslice]
      refine (ih hrest' hnd (by simpa using hfuel)).trans ?_
      congr 1
      funext b
      by_cases hba : b = a
      · simp [hba]
      · simp [hba]

/-- The loop frees the blocks of the sizes that it has not seen yet. -/
theorem Cached.destroyFrom (h : s.Cached L) {pre post : List (Fin 64)} (hlru : s.lru.Links (pre ++ post))
    {heap : α → Option (MemorySlice α)} {fuel : ℕ}
    (hheap : ∀ i ∈ post, ∀ a ∈ L i, heap a = s.heap a) (hfuel : post.length + kept L ≤ fuel) :
    ∃ s', SliceAllocator.destroyFrom fuel { s with heap := heap } post.head? = some s' ∧
      ∀ a, ((∃ i ∈ post, a ∈ L i) → s'.heap a = none) ∧
        ((∀ i ∈ post, a ∉ L i) → s'.heap a = heap a) := by
  induction post generalizing pre heap fuel with
  | nil => exact ⟨_, by rw [List.head?_nil, SliceAllocator.destroyFrom], by simp⟩
  | cons i post ih =>
      obtain ⟨fuel, rfl⟩ : ∃ k, fuel = k + 1 := ⟨fuel - 1, by rw [List.length_cons] at hfuel; omega⟩
      have hlen := kept_update L i []
      rw [List.length_cons] at hfuel
      have hchain : Chain (fun a => (heap a).map MemorySlice.next) (s.cachedMslices i) (L i) :=
        (h.chain i).congr fun a ha => by rw [hheap i List.mem_cons_self a ha]; rfl
      have hfree := freeSlices_eq hchain (h.nodup i) (show (L i).length ≤ fuel by simp at hlen; omega)
      have hnext : (s.lru.node i).next = post.head? := by rw [hlru.node pre i post rfl]
      -- the blocks of the sizes behind are still there
      have hi : i ∉ post := (List.nodup_cons.mp (List.nodup_append.mp hlru.nodup).2.1).1
      let heap' := fun a => if a ∈ L i then none else heap a
      have hheap' : ∀ j ∈ post, ∀ a ∈ L j, heap' a = s.heap a := by
        intro j hj a ha
        have hne : a ∉ L i := fun hai => ne_of_mem_of_not_mem hj hi (h.eq_of_mem ha hai)
        exact (if_neg hne).trans (hheap j (List.mem_cons_of_mem _ hj) a ha)
      have hlru' : s.lru.Links ((pre ++ [i]) ++ post) := by simpa using hlru
      obtain ⟨s', hs', hres⟩ := ih hlru' hheap' (show post.length + kept L ≤ fuel by omega)
      refine ⟨s', ?_, fun a => ⟨?_, fun hnot => ?_⟩⟩
      · rw [List.head?_cons, SliceAllocator.destroyFrom, hfree]
        simpa [hnext] using hs'
      · rintro ⟨j, hj, ha⟩
        by_cases hex : ∃ k ∈ post, a ∈ L k
        · exact (hres a).1 hex
        · push Not at hex
          rw [(hres a).2 hex]
          rcases List.mem_cons.mp hj with rfl | hj
          · exact if_pos ha
          · exact absurd ha (hex j hj)
      · rw [(hres a).2 fun j hj => hnot j (List.mem_cons_of_mem _ hj)]
        exact if_neg (hnot i List.mem_cons_self)

/-- All blocks that are kept are freed, and no other. -/
theorem Cached.destroy (h : s.Cached L) {fuel : ℕ} (hfuel : 64 + kept L ≤ fuel) :
    ∃ s', s.destroy fuel = some s' ∧
      ∀ a, (a ∈ blocks L → s'.heap a = none) ∧ (a ∉ blocks L → s'.heap a = s.heap a) := by
  obtain ⟨xs, hlru, hxs⟩ := h.lru
  have hlen : xs.length ≤ 64 := by simpa using hlru.nodup.length_le_card
  have hlru' : s.lru.Links ([] ++ xs) := hlru
  have hheap : ∀ i ∈ xs, ∀ a ∈ L i, s.heap a = s.heap a := fun _ _ _ _ => rfl
  obtain ⟨s', hs', hres⟩ := h.destroyFrom hlru' hheap (show xs.length + kept L ≤ fuel by omega)
  refine ⟨s', ?_, fun a => ⟨?_, fun ha => (hres a).2 fun i _ hi => ha ⟨i, hi⟩⟩⟩
  · rw [SliceAllocator.destroy, hlru.head]
    exact hs'
  · rintro ⟨i, hi⟩
    exact (hres a).1 ⟨i, (hxs i).mpr (List.ne_nil_of_mem hi), hi⟩

end destroy

end SliceAllocator

end HevTunnel
