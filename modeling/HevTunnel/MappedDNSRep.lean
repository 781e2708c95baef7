import HevTunnel.MappedDNSRun
import HevTunnel.Recency
import HevTunnel.Transition

/-! # The representation invariant of the mapped DNS cache

A run is a list of searches, each with an outcome of its allocations, and lookups.  `TracedDNS` is a
cache with the time at which each node was touched last and with the step that led to it; the code
has neither.

`Represented` says how the list, the tree, the array and the nodes of a cache belong together, and
`StepKept` what a miss may change.  They hold all along a run exactly if `strdup` never fails for a
name that is not cached (`everyState_kept_iff_names`): `hev_mapped_dns_node_alloc` does not look at
its result, and then adds a node without a name. -/

namespace HevTunnel
namespace MappedDNS

/-- A call of the cache, with the outcome of its allocations. -/
inductive Op where
  | find (name : CStr) (alloc : Alloc)
  | lookup (ip : BitVec 32)

/-- The cache after a call. -/
def apply (d : MappedDNS) : Op → Option MappedDNS
  | .find name alloc => (d.find name alloc).map Prod.fst
  | .lookup ip => (d.lookup ip).map Prod.fst

/-- The node that a call touches: the one that is found, or the new one. -/
def target (d : MappedDNS) : Op → Option Ptr
  | .find name alloc =>
      match d.tree.descend (d.compare name) [] with
      | some (some p, _) => some p
      | some (none, _) => if alloc = .noNode then none else some d.brk
      | none => none
  | .lookup ip =>
      if d.max ≤ d.hostIndex ip then none else (d.records[(d.hostIndex ip).toNat]?).join

/-- The name is not cached: a search ends at a free slot. -/
def Misses (d : MappedDNS) (name : CStr) : Prop :=
  ∃ slot, d.tree.descend (d.compare name) [] = some (none, slot)

/-- The name of a node. -/
def name (d : MappedDNS) (p : Ptr) : Option CStr := (d.heap p).bind DNSNode.name

end MappedDNS

/-- A cache, the times of the last touches, and the last step with the state before it. -/
structure TracedDNS where
  dns : MappedDNS
  now : ℕ
  touchedAt : Ptr → ℕ
  prev : Option (MappedDNS × (Ptr → ℕ) × MappedDNS.Op)

namespace TracedDNS

open MappedDNS

def init (d : MappedDNS) : TracedDNS := ⟨d, 0, fun _ => 0, none⟩

/-- The time is noted for the node that is touched. -/
def step (s : TracedDNS) (x : Op) : Option TracedDNS :=
  (s.dns.apply x).map (fun d => {
    dns := d
    now := s.now + 1
    touchedAt := fun p => if s.dns.target x = some p then s.now else s.touchedAt p
    prev := some (s.dns, s.touchedAt, x) })

/-- How the structures of a cache belong together. -/
structure Represented (d : MappedDNS) (touchedAt : Ptr → ℕ) : Prop where
  use_le : (d.use : Int) ≤ d.max
  /-- The array is filled up to `use`. -/
  filled : ∀ i < d.max.toNat, (∃ p, d.records[i]? = some (some p)) ↔ i < d.use
  /-- The list, the tree and the array hold the same nodes, each once. -/
  nodup : d.list.Nodup
  tree : d.tree.inorder.Perm d.list
  array : (d.records.filterMap id).Perm d.list
  /-- Every node has a name and stands in the array under its index. -/
  node : ∀ p ∈ d.list, ∃ name idx, d.heap p = some ⟨some name, idx⟩ ∧ d.records[idx]? = some (some p)
  distinct : ∀ p ∈ d.list, ∀ q ∈ d.list, d.name p = d.name q → p = q
  /-- A node precedes the ones with smaller names in the tree. -/
  sorted : d.tree.inorder.Pairwise
    (fun p q => ∀ a b, d.name p = some a → d.name q = some b → 0 < strcmp a b)
  search : ∀ p ∈ d.list, ∀ name, d.name p = some name →
    ∃ slot, d.tree.descend (d.compare name) [] = some (some p, slot)
  recency : d.list.Pairwise (fun p q => touchedAt p < touchedAt q)

/-- The node touched longest ago makes room for the new one, which gets its index. -/
def Evicts (d : MappedDNS) (touchedAt : Ptr → ℕ) (name : CStr) (d' : MappedDNS) : Prop :=
  ∃ q ∈ d.list, (∀ p ∈ d.list, p ≠ q → touchedAt q < touchedAt p) ∧ q ≠ d.brk ∧
    (∀ p, p ∈ d'.list ↔ p = d.brk ∨ p ∈ d.list ∧ p ≠ q) ∧
    d'.heap d.brk = some ⟨some name, d.index q⟩

/-- What a miss does: evict a node if the cache is full, and nothing if an allocation fails. -/
structure StepKept (d : MappedDNS) (touchedAt : Ptr → ℕ) (x : Op) (d' : MappedDNS) : Prop where
  evict : ∀ name, x = .find name .ok → d.Misses name → d.max ≤ d.use → Evicts d touchedAt name d'
  failed : ∀ name alloc, x = .find name alloc → d.Misses name → alloc ≠ .ok → d' = d

/-- `strdup` fails for a name that is not cached. -/
def LosesName (s : TracedDNS) : Op → Prop
  | .find name alloc => alloc = .noName ∧ s.dns.Misses name
  | .lookup _ => False

/-- The structures belong together, the last step has kept to what it may change, and no call meets
a memory fault. -/
structure Kept (s : TracedDNS) : Prop where
  represented : Represented s.dns s.touchedAt
  step : ∀ d touchedAt x, s.prev = some (d, touchedAt, x) → StepKept d touchedAt x s.dns
  returns : ∀ x, ¬ s.LosesName x → ∃ d, s.dns.apply x = some d

/-! ### The structures of a cache -/

section represented
variable {d : MappedDNS}

/-- The entries of an array of pointers, read by index. -/
theorem filterMap_id_eq_range {α : Type} (l : List (Option α)) :
    l.filterMap id = (List.range l.length).filterMap (fun i => (l[i]?).join) := by
  have hmap : (List.range l.length).map (fun i => (l[i]?).join) = l := by
    apply List.ext_getElem (by simp)
    intro i h₁ h₂
    simp [h₂]
  nth_rewrite 1 [← hmap]
  rw [List.filterMap_map]
  rfl

/-- The array holds the nodes of the list. -/
theorem array_perm (h : d.Linked) : (d.records.filterMap id).Perm d.list := by
  obtain ⟨k, hk⟩ : ∃ k, d.records.length = d.use + k := by
    have := h.size
    have := h.records_length
    exact ⟨d.records.length - d.use, by omega⟩
  have hfree : ((List.range k).map (d.use + ·)).filterMap (fun i => (d.records[i]?).join) = [] := by
    rw [List.filterMap_eq_nil_iff]
    intro i hi
    obtain ⟨j, hj, rfl⟩ := List.mem_map.mp hi
    have := h.records_length
    rw [List.mem_range] at hj
    rw [h.free (d.use + j) (by omega) (by omega)]
    rfl
  have htaken : (d.list.map d.index).filterMap (fun i => (d.records[i]?).join) = d.list := by
    rw [List.filterMap_map]
    nth_rewrite 2 [← List.filterMap_some (l := d.list)]
    apply List.filterMap_congr
    intro p hp
    rw [Function.comp_apply, h.taken p hp]
    rfl
  rw [filterMap_id_eq_range, hk, List.range_add, List.filterMap_append, hfree, List.append_nil]
  have hperm := h.slots.symm.filterMap (fun i => (d.records[i]?).join)
  rwa [htaken] at hperm

theorem name_eq (h : d.Inv) {p : Ptr} (hp : p ∈ d.list) : d.name p = some (d.entry p).1 := by
  unfold MappedDNS.name
  rw [h.named p hp]
  rfl

theorem misses_of_missed {name : CStr} {slot : RBTree.Path Ptr} (h : d.Missed name slot) :
    d.Misses name := ⟨slot, h.descend⟩

/-- A name is cached or a search for it misses. -/
theorem not_misses (h : d.Inv) {p : Ptr} (hp : p ∈ d.list) {name : CStr} (hname : d.name p = some name) :
    ∃ slot, d.tree.descend (d.compare name) [] = some (some p, slot) := by
  rw [name_eq h hp, Option.some.injEq] at hname
  obtain ⟨q, slot, hd, hq, hqn⟩ | ⟨slot, hm⟩ := h.descend_cases name
  · rw [h.entry_inj hp hq (hname.trans hqn.symm)]
    exact ⟨slot, hd⟩
  · refine absurd ?_ hm.notMem
    rw [← hname]
    exact List.mem_map_of_mem (entry_mem hp)

theorem represented (h : d.Inv) (hpos : 1 ≤ d.max) {touchedAt : Ptr → ℕ}
    (hrec : d.list.Pairwise (fun p q => touchedAt p < touchedAt q)) : Represented d touchedAt where
  use_le := by
    have := h.size
    omega
  filled := by
    intro i hi
    constructor
    · rintro ⟨p, hp⟩
      by_contra hlt
      rw [h.free i (by omega) hi] at hp
      cases hp
    · intro hlt
      obtain ⟨p, hp, rfl⟩ := h.exists_of_lt hlt
      exact ⟨p, h.taken p hp⟩
  nodup := h.nodup
  tree := h.perm
  array := array_perm h.toLinked
  node := by
    intro p hp
    refine ⟨_, _, h.named p hp, ?_⟩
    rw [← h.index_eq hp]
    exact h.taken p hp
  distinct := by
    intro p hp q hq heq
    rw [name_eq h hp, name_eq h hq, Option.some.injEq] at heq
    exact h.entry_inj hp hq heq
  sorted := by
    refine h.sorted.imp_of_mem ?_
    intro p q hp hq hlt a b ha hb
    rw [name_eq h (h.mem_tree.mp hp), Option.some.injEq] at ha
    rw [name_eq h (h.mem_tree.mp hq), Option.some.injEq] at hb
    rw [← ha, ← hb]
    exact strcmp_pos.mpr hlt
  search := fun p hp name hname => not_misses h hp hname
  recency := hrec

end represented

/-! ### One step -/

section step
variable {d d' : MappedDNS}

/-- What a call does to the list: nothing, move the node it touches to the end, or add a node there
in place of some others. -/
def Relisted (d : MappedDNS) (target : Option Ptr) (d' : MappedDNS) : Prop :=
  (target = none ∧ d'.list = d.list) ∨
  (∃ p old, target = some p ∧ p ∉ old ∧ old.Sublist d.list ∧ d'.list = old ++ [p])

theorem relisted_touch (h : d.Linked) {p : Ptr} : Relisted d (some p) (d.touch p) := by
  refine .inr ⟨p, d.list.erase p, rfl, ?_, List.erase_sublist, rfl⟩
  exact fun hp => (h.nodup.mem_erase_iff.mp hp).1 rfl

theorem Relisted.moved {target : Option Ptr} (h : Relisted d target d') :
    Moved target d.list d'.list := by
  rcases h with ⟨rfl, hl⟩ | ⟨p, old, rfl, hp, hold, hl⟩
  · rw [hl]
    exact .refl (by simp)
  · rw [hl]
    exact .append hold hp

theorem brk_notMem (h : d.Linked) : d.brk ∉ d.list :=
  fun hb => absurd (h.fresh _ hb) (lt_irrefl _)

/-- A search touches the node that it finds. -/
theorem find_hit (h : d.Inv) {name : CStr} {p : Ptr} {slot : RBTree.Path Ptr} (alloc : Alloc)
    (hd : d.tree.descend (d.compare name) [] = some (some p, slot)) (hp : p ∈ d.list) :
    d.apply (.find name alloc) = some (d.touch p) ∧ d.target (.find name alloc) = some p := by
  constructor
  · simp [MappedDNS.apply, MappedDNS.find, hd, h.named p hp]
  · simp [target, hd]

theorem find_noNode {name : CStr} {slot : RBTree.Path Ptr}
    (hd : d.tree.descend (d.compare name) [] = some (none, slot)) :
    d.apply (.find name .noNode) = some d ∧ d.target (.find name .noNode) = none := by
  constructor
  · simp [MappedDNS.apply, MappedDNS.find, hd]
  · simp [target, hd]

/-- A miss with successful allocation. -/
theorem find_miss (h : d.Inv) (hpos : 1 ≤ d.max) {name : CStr} (hm : d.Misses name) :
    ∃ d', d.apply (.find name .ok) = some d' ∧ d'.Inv ∧ d'.config = d.config ∧
      d.target (.find name .ok) = some d.brk ∧
      ((d.use < d.max.toNat ∧ d'.list = d.list ++ [d.brk]) ∨
       ∃ q rest, d.list = q :: rest ∧ d'.list = rest ++ [d.brk] ∧
        d'.heap d.brk = some ⟨some name, d.index q⟩) := by
  obtain ⟨slot, hd⟩ := hm
  obtain ⟨d', r, hf, hi, hcfg⟩ : ∃ d' r, d.find name .ok = some (d', r) ∧ d'.Inv ∧
      d'.config = d.config := by
    obtain ⟨d', hf, hi, -, hcfg⟩ := h.find_sim (by omega) name
    exact ⟨d', _, hf, hi, hcfg⟩
  refine ⟨d', by simp [MappedDNS.apply, hf], hi, hcfg, by simp [target, hd], ?_⟩
  have hadd : d.addNode slot (some name) = some (d', r) := by
    simpa [MappedDNS.find, hd] using hf
  obtain ⟨tree, heap, -, hroom, -, rfl, -⟩ | ⟨tree, heap, q, rest, hlist, -, -, rfl, -⟩ :=
    h.toLinked.addNode_cases hd hadd
  · exact .inl ⟨hroom, rfl⟩
  · exact .inr ⟨q, rest, hlist, rfl, added_heap_new⟩

/-- A lookup finds nothing or touches a node. -/
theorem apply_lookup (h : d.Inv) (hhost : 0 ≤ (~~~d.mask).toInt) (ip : BitVec 32) :
    ∃ d', d.apply (.lookup ip) = some d' ∧ d'.Inv ∧ d'.config = d.config ∧
      Relisted d (d.target (.lookup ip)) d' := by
  have hnonneg := hostIndex_nonneg hhost ip
  obtain ⟨hneg, -, -⟩ | ⟨hge, hf⟩ | ⟨p, hp, node, -, hpi, hlt, hf⟩ := h.lookup_cases ip
  · omega
  · refine ⟨d, by simp [MappedDNS.apply, hf], h, rfl, .inl ⟨?_, rfl⟩⟩
    simp only [target]
    split_ifs with hmax
    · rfl
    · rw [h.free (d.hostIndex ip).toNat (by omega) (by omega)]
      rfl
  · have htarget : d.target (.lookup ip) = some p := by
      have hidx : (d.hostIndex ip).toNat = d.index p := by omega
      simp only [target]
      rw [if_neg (by omega), hidx, h.taken p hp]
      rfl
    refine ⟨d.touch p, by simp [MappedDNS.apply, hf], h.touch hp, rfl, ?_⟩
    rw [htarget]
    exact relisted_touch h.toLinked

/-- A search whose allocations leave the node with a name. -/
theorem apply_find (h : d.Inv) (hpos : 1 ≤ d.max) (name : CStr) {alloc : Alloc}
    (halloc : alloc = .noName → ¬ d.Misses name) :
    ∃ d', d.apply (.find name alloc) = some d' ∧ d'.Inv ∧ d'.config = d.config ∧
      Relisted d (d.target (.find name alloc)) d' := by
  obtain ⟨p, slot, hd, hp, -⟩ | ⟨slot, hm⟩ := h.descend_cases name
  · obtain ⟨hf, htarget⟩ := find_hit h alloc hd hp
    refine ⟨_, hf, h.touch hp, rfl, ?_⟩
    rw [htarget]
    exact relisted_touch h.toLinked
  · have hmiss := misses_of_missed hm
    cases alloc with
    | ok =>
        obtain ⟨d', hf, hi, hcfg, htarget, ⟨-, hlist⟩ | ⟨q, rest, hlist, hlist', -⟩⟩ :=
          find_miss h hpos hmiss
        · refine ⟨d', hf, hi, hcfg, ?_⟩
          rw [htarget]
          exact .inr ⟨_, d.list, rfl, brk_notMem h.toLinked, List.Sublist.refl _, hlist⟩
        · refine ⟨d', hf, hi, hcfg, ?_⟩
          rw [htarget]
          refine .inr ⟨_, rest, rfl, ?_, ?_, hlist'⟩
          · intro hb
            exact brk_notMem h.toLinked (by rw [hlist]; exact List.mem_cons_of_mem _ hb)
          · rw [hlist]
            exact List.sublist_cons_self _ _
    | noNode =>
        obtain ⟨hf, htarget⟩ := find_noNode hm.descend
        refine ⟨d, hf, h, rfl, ?_⟩
        rw [htarget]
        exact .inl ⟨rfl, rfl⟩
    | noName => exact absurd hmiss (halloc rfl)

/-- A miss keeps to what it may change. -/
theorem stepKept (h : d.Inv) (hpos : 1 ≤ d.max) {touchedAt : Ptr → ℕ}
    (hrec : d.list.Pairwise (fun p q => touchedAt p < touchedAt q)) {x : Op}
    (hx : ∀ name, x = .find name .noName → ¬ d.Misses name) (hd : d.apply x = some d') :
    StepKept d touchedAt x d' := by
  constructor
  · rintro name rfl hmiss hfull
    obtain ⟨d₁, hf, -, -, -, ⟨hroom, -⟩ | ⟨q, rest, hlist, hlist', hheap⟩⟩ := find_miss h hpos hmiss
    · omega
    · rw [hd] at hf
      cases hf
      have hnodup := h.nodup
      rw [hlist, List.nodup_cons] at hnodup
      rw [hlist, List.pairwise_cons] at hrec
      refine ⟨q, by rw [hlist]; exact List.mem_cons_self, ?_, ?_, ?_, hheap⟩
      · intro p hp hpq
        rw [hlist] at hp
        exact hrec.1 p ((List.mem_cons.mp hp).resolve_left hpq)
      · rintro rfl
        exact brk_notMem h.toLinked (by rw [hlist]; exact List.mem_cons_self)
      · intro p
        rw [hlist', hlist]
        simp only [List.mem_append, List.mem_cons, List.not_mem_nil, or_false]
        constructor
        · rintro (hp | rfl)
          · refine .inr ⟨.inr hp, ?_⟩
            rintro rfl
            exact hnodup.1 hp
          · exact .inl rfl
        · rintro (rfl | ⟨rfl | hp, hpq⟩)
          · exact .inr rfl
          · exact absurd rfl hpq
          · exact .inl hp
  · rintro name alloc rfl hmiss halloc
    cases alloc with
    | ok => exact absurd rfl halloc
    | noNode =>
        obtain ⟨slot, hslot⟩ := hmiss
        rw [(find_noNode hslot).1] at hd
        cases hd
        rfl
    | noName => exact absurd hmiss (hx name rfl)

end step

/-! ### Runs -/

/-- The invariant of a run in which no name is lost. -/
structure Sound (s : TracedDNS) : Prop where
  inv : s.dns.Inv
  pos : 1 ≤ s.dns.max
  host : 0 ≤ (~~~s.dns.mask).toInt
  recency : s.dns.list.Pairwise (fun p q => s.touchedAt p < s.touchedAt q)
  past : ∀ p ∈ s.dns.list, s.touchedAt p < s.now
  kept : ∀ d touchedAt x, s.prev = some (d, touchedAt, x) → StepKept d touchedAt x s.dns

section run
variable {s s' : TracedDNS} {x : Op}

theorem sound_init {net mask : BitVec 32} {max : Int} (hmax : 1 ≤ max) {d : MappedDNS}
    (h : construct net mask max = some d) : (init d).Sound := by
  obtain ⟨hle, hcfg, hlist⟩ := construct_eq_some h
  obtain ⟨rfl, rfl, rfl⟩ : d.max = max ∧ d.net = net ∧ d.mask = mask := by
    simpa [config] using hcfg
  refine ⟨construct_inv h, hmax, by show 0 ≤ (~~~d.mask).toInt; omega, ?_, ?_, ?_⟩
  · show d.list.Pairwise _
    rw [hlist]
    exact .nil
  · intro p hp
    have hp' : p ∈ d.list := hp
    rw [hlist] at hp'
    cases hp'
  · intro d touchedAt x hprev
    cases hprev

theorem Sound.apply (h : s.Sound) (hx : ¬ s.LosesName x) :
    ∃ d, s.dns.apply x = some d ∧ d.Inv ∧ d.config = s.dns.config ∧
      Relisted s.dns (s.dns.target x) d := by
  cases x with
  | find name alloc => exact apply_find h.inv h.pos name (fun hno hmiss => hx ⟨hno, hmiss⟩)
  | lookup ip => exact apply_lookup h.inv h.host ip

theorem Sound.toKept (h : s.Sound) : s.Kept := by
  refine ⟨represented h.inv h.pos h.recency, h.kept, ?_⟩
  intro x hx
  obtain ⟨d, hd, -⟩ := h.apply hx
  exact ⟨d, hd⟩

/-- A step that loses no name keeps the invariant. -/
theorem Sound.step (h : s.Sound) (hs : s.step x = some s') (hx : ¬ s.LosesName x) : s'.Sound := by
  obtain ⟨d', hd, hi, hcfg, hlist⟩ := h.apply hx
  rw [TracedDNS.step, hd] at hs
  cases hs
  obtain ⟨hmax, -, hmask⟩ : d'.max = s.dns.max ∧ d'.net = s.dns.net ∧ d'.mask = s.dns.mask := by
    simpa [config] using hcfg
  obtain ⟨hpast, hrec⟩ := (Recency.mk h.past h.recency).moved hlist.moved
  refine ⟨hi, ?_, ?_, hrec, hpast, ?_⟩
  · show 1 ≤ d'.max
    rw [hmax]
    exact h.pos
  · show 0 ≤ (~~~d'.mask).toInt
    rw [hmask]
    exact h.host
  · intro d touchedAt y hprev
    cases hprev
    refine stepKept h.inv h.pos h.recency ?_ hd
    rintro name rfl hmiss
    exact hx ⟨rfl, hmiss⟩

/-- A node without a name is added although the allocation failed. -/
theorem not_kept_of_losesName (h : s.Sound) (hs : s.step x = some s') (hx : s.LosesName x) :
    ¬ s'.Kept := by
  cases x with
  | lookup ip => exact hx.elim
  | find name alloc =>
      obtain ⟨rfl, hmiss⟩ := hx
      intro hkept
      simp only [TracedDNS.step, Option.map_eq_some_iff] at hs
      obtain ⟨d', hd, rfl⟩ := hs
      have heq : d' = s.dns :=
        (hkept.step _ _ _ rfl).failed name .noName rfl hmiss (by decide)
      obtain ⟨slot, hslot⟩ := hmiss
      simp only [MappedDNS.apply, Option.map_eq_some_iff] at hd
      obtain ⟨⟨d₁, r⟩, hf, rfl⟩ := hd
      replace heq : d₁ = s.dns := heq
      have hadd : s.dns.addNode slot none = some (d₁, r) := by
        simpa [MappedDNS.find, hslot] using hf
      have hmem : s.dns.brk ∈ d₁.list := by
        obtain ⟨tree, heap, -, -, -, hd₁, -⟩ | ⟨tree, heap, q, rest, -, -, -, hd₁, -⟩ :=
          h.inv.toLinked.addNode_cases hslot hadd
        · rw [hd₁]
          exact List.mem_append_right _ (List.mem_singleton_self _)
        · rw [hd₁]
          exact List.mem_append_right _ (List.mem_singleton_self _)
      rw [heq] at hmem
      exact brk_notMem h.inv.toLinked hmem

end run

/-- For every capacity and every run from the empty cache: the structures belong together in every
state, every miss keeps to what it may change and no call meets a memory fault, exactly if `strdup`
never fails for a name that is not cached. -/
theorem everyState_kept_iff_names {net mask : BitVec 32} {max : Int} (hmax : 1 ≤ max) {d : MappedDNS}
    (h : construct net mask max = some d) (xs : List Op) :
    EveryState step Kept (init d) xs ↔
      EveryStep step (fun s x => ¬ s.LosesName x) (init d) xs := by
  apply everyState_iff Sound Sound.toKept
  · intro s x s' hs hstep hx
    exact hs.step hstep hx
  · intro s x s' hs hstep hx
    exact not_kept_of_losesName hs hstep hx
  · exact sound_init hmax h

/-- A cache for one name: the second name takes the place of the first one. -/
theorem kept_capacity_one : ∃ d, construct 0x64400000#32 0xffc00000#32 1 = some d ∧
    EveryState step Kept (init d)
      [.find ⟨[97], by decide⟩ .ok, .find ⟨[98], by decide⟩ .noNode, .find ⟨[98], by decide⟩ .ok] := by
  obtain ⟨d, hd⟩ : ∃ d, construct 0x64400000#32 0xffc00000#32 1 = some d := ⟨_, rfl⟩
  refine ⟨d, hd, (everyState_kept_iff_names (by decide) hd _).mpr ?_⟩
  have hok : ∀ (s : TracedDNS) name alloc, alloc ≠ .noName → ¬ s.LosesName (.find name alloc) :=
    fun s name alloc halloc h => halloc h.1
  intro s₁ _
  refine ⟨hok _ _ _ (by decide), ?_⟩
  intro s₂ _
  refine ⟨hok _ _ _ (by decide), ?_⟩
  intro s₃ _
  exact ⟨hok _ _ _ (by decide), trivial⟩

/-- A search whose `strdup` fails: the cache is not what it was, and has a node without a name. -/
theorem failed_strdup_adds_node : ∃ d s, construct 0x64400000#32 0xffc00000#32 4 = some d ∧
    runSteps step (init d) [.find ⟨[97], by decide⟩ .noName] = some s ∧ s.dns.list = [0] ∧
    s.dns.use = 1 ∧ s.dns.heap 0 = some ⟨none, 0⟩ ∧ ¬ s.Kept := by
  refine ⟨_, _, rfl, rfl, rfl, rfl, rfl, ?_⟩
  intro h
  obtain ⟨name, idx, hheap, -⟩ := h.represented.node 0 (List.mem_singleton_self 0)
  cases hheap

end TracedDNS

end HevTunnel
