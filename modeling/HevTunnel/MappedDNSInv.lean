import HevTunnel.RBTreeBalance
import HevTunnel.Lru
import HevTunnel.MappedDNSLinks

/-! # The mapped DNS cache assigns indices by recency

`Inv d` adds names to `Linked d`: every node has one, the tree is sorted by them (larger names
first, since a node smaller than the key sends the search left) and balanced, and `cache d`, the
names and indices in list order, is a well-formed `Lru.Cache`.

Under the invariant the operations are those of `Lru`: `Inv.find_sim` for `hev_mapped_dns_find`
with successful allocation and `Inv.lookup_sim` for `hev_mapped_dns_lookup`.  In particular
neither meets a memory fault. -/

namespace HevTunnel
namespace MappedDNS

/-- Name and index of a node. -/
def entry (d : MappedDNS) (p : Ptr) : CStr × ℕ :=
  match d.heap p with
  | some ⟨some name, idx⟩ => (name, idx)
  | _ => (⟨[], by simp⟩, 0)

/-- Names and indices in order of recency. -/
def cache (d : MappedDNS) : Lru.Cache CStr := d.list.map d.entry

structure Inv (d : MappedDNS) : Prop extends Linked d where
  named : ∀ p ∈ d.list, d.heap p = some ⟨some (d.entry p).1, (d.entry p).2⟩
  wf : Lru.WF d.max.toNat d.cache
  balanced : d.tree.IsBalanced
  sorted : d.tree.inorder.Pairwise (fun p q => (d.entry q).1.key < (d.entry p).1.key)

theorem entry_of_heap {d : MappedDNS} {p : Ptr} {name : CStr} {idx : ℕ}
    (h : d.heap p = some ⟨some name, idx⟩) : d.entry p = (name, idx) := by
  unfold entry
  rw [h]

theorem construct_inv {net mask : BitVec 32} {max : Int} {d : MappedDNS}
    (h : construct net mask max = some d) : d.Inv := by
  have hl := construct_linked h
  unfold construct at h
  split_ifs at h
  cases h
  exact ⟨hl, by simp, Lru.WF.nil _, RBTree.isBalanced_nil, by simp⟩

theorem map_erase_of_inj {α β : Type} [DecidableEq α] [BEq β] [LawfulBEq β] {f : α → β} {x : α}
    {l : List α} (h : ∀ y ∈ l, f y = f x → y = x) : (l.erase x).map f = (l.map f).erase (f x) := by
  induction l with
  | nil => rfl
  | cons y l ih =>
      by_cases hy : y = x
      · subst hy
        simp
      · have hf : f y ≠ f x := fun h' => hy (h y (by simp) h')
        rw [List.erase_cons_tail (by simpa using hy), List.map_cons, List.map_cons,
          List.erase_cons_tail (by simpa using hf), ih (fun z hz => h z (by simp [hz]))]

section inv
variable {d : MappedDNS}

theorem Inv.entry_inj (h : d.Inv) {p q : Ptr} (hp : p ∈ d.list) (hq : q ∈ d.list)
    (he : (d.entry p).1 = (d.entry q).1) : p = q := by
  have hn := h.wf.names
  rw [cache, List.map_map] at hn
  exact List.inj_on_of_nodup_map hn hp hq he

theorem Inv.index_eq (h : d.Inv) {p : Ptr} (hp : p ∈ d.list) : d.index p = (d.entry p).2 :=
  index_of_heap (h.named p hp)

theorem entry_mem {p : Ptr} (hp : p ∈ d.list) : d.entry p ∈ d.cache :=
  List.mem_map_of_mem hp

theorem mem_cache {e : CStr × ℕ} : e ∈ d.cache ↔ ∃ p ∈ d.list, d.entry p = e :=
  List.mem_map

theorem Inv.length_cache (h : d.Inv) : d.cache.length = d.use := by
  rw [h.use_eq]
  exact List.length_map _

/-! ### Searching -/

theorem Inv.compare_eq (h : d.Inv) (name : CStr) {p : Ptr} (hp : p ∈ d.list) :
    d.compare name p = some (strcmp (d.entry p).1 name) := by
  unfold compare
  rw [h.named p hp]
  rfl

/-- The search for `name` ended at the empty `slot` where its node belongs. -/
structure Missed (d : MappedDNS) (name : CStr) (slot : RBTree.Path Ptr) : Prop where
  descend : d.tree.descend (d.compare name) [] = some (none, slot)
  notMem : name ∉ d.cache.map Prod.fst
  above : ∀ p ∈ RBTree.before slot, name.key < (d.entry p).1.key
  below : ∀ p ∈ RBTree.after slot, (d.entry p).1.key < name.key

/-- The descent finds the node of a cached name, or the slot of one that is not cached. -/
theorem Inv.descend_cases (h : d.Inv) (name : CStr) :
    (∃ p slot, d.tree.descend (d.compare name) [] = some (some p, slot) ∧
      p ∈ d.list ∧ (d.entry p).1 = name) ∨
    (∃ slot, d.Missed name slot) := by
  have hs : d.tree.inorder.Pairwise
      (fun p q => 0 ≤ strcmp (d.entry q).1 name → 0 < strcmp (d.entry p).1 name) := by
    refine h.sorted.imp ?_
    intro p q hpq hq
    rw [strcmp_pos]
    refine lt_of_le_of_lt ?_ hpq
    by_contra hlt
    have := strcmp_neg.mpr (not_le.mp hlt)
    omega
  rcases RBTree.descend_sorted d.tree [] (fun p hp => h.compare_eq name (h.mem_tree.mp hp)) hs
    with ⟨p, slot, hd, hp, h0⟩ | ⟨slot, a, b, hd, hab, hb, ha, hpos, hneg⟩
  · exact .inl ⟨p, slot, hd, h.mem_tree.mp hp, strcmp_eq_zero.mp h0⟩
  · simp only [RBTree.before, RBTree.after, List.nil_append, List.append_nil] at hb ha
    subst hb ha
    refine .inr ⟨slot, hd, ?_, fun p hp => strcmp_pos.mp (hpos p hp),
      fun p hp => strcmp_neg.mp (hneg p hp)⟩
    intro hmem
    obtain ⟨e, he, rfl⟩ := List.mem_map.mp hmem
    obtain ⟨p, hp, rfl⟩ := mem_cache.mp he
    have h0 : strcmp (d.entry p).1 (d.entry p).1 = 0 := strcmp_eq_zero.mpr rfl
    rw [← h.mem_tree, hab, List.mem_append] at hp
    rcases hp with hp | hp
    · have := hpos p hp
      omega
    · have := hneg p hp
      omega

/-! ### Touching a node -/

theorem Inv.touch_cache (h : d.Inv) {p : Ptr} (hp : p ∈ d.list) :
    (d.touch p).cache = Lru.touch d.cache (d.entry p) := by
  have he : (d.list.erase p).map d.entry = d.cache.erase (d.entry p) :=
    map_erase_of_inj (fun q hq hqp => h.entry_inj hq hp (congrArg Prod.fst hqp))
  show (d.list.erase p ++ [p]).map d.entry = d.cache.erase (d.entry p) ++ [d.entry p]
  rw [List.map_append, he]
  rfl

theorem Inv.touch (h : d.Inv) {p : Ptr} (hp : p ∈ d.list) : (d.touch p).Inv := by
  refine ⟨h.toLinked.touch hp, ?_, ?_, h.balanced, h.sorted⟩
  · intro q hq
    exact h.named q ((touch_perm hp).mem_iff.mp hq)
  · rw [h.touch_cache hp]
    exact h.wf.of_perm (Lru.touch_perm (entry_mem hp))

/-! ### Adding a node -/

section added
variable {name : CStr} {idx use : ℕ} {tree : RBTree Ptr} {old : List Ptr}
  {heap : Ptr → Option DNSNode}

theorem added_entry_new : (d.added (some name) idx use tree old heap).entry d.brk = (name, idx) :=
  entry_of_heap added_heap_new

theorem added_entry_old {p : Ptr} (hb : p < d.brk) (hh : heap p = d.heap p) :
    (d.added (some name) idx use tree old heap).entry p = d.entry p := by
  unfold entry
  rw [added_heap_old hb, hh]

theorem added_cache (hb : ∀ p ∈ old, p < d.brk) (hh : ∀ p ∈ old, heap p = d.heap p) :
    (d.added (some name) idx use tree old heap).cache = old.map d.entry ++ [(name, idx)] := by
  have he : old.map (d.added (some name) idx use tree old heap).entry = old.map d.entry :=
    List.map_congr_left (fun p hp => added_entry_old (hb p hp) (hh p hp))
  show (old ++ [d.brk]).map _ = _
  rw [List.map_append, he, List.map_singleton, added_entry_new]

/-- Linking the new node at its slot keeps the order, under any way to read the new name. -/
theorem Inv.link_sorted (h : d.Inv) {slot : RBTree.Path Ptr} (hm : d.Missed name slot)
    {nm : Ptr → CStr} (hnew : nm d.brk = name) (hnm : ∀ p ∈ d.list, nm p = (d.entry p).1) :
    (RBTree.before slot ++ d.brk :: RBTree.after slot).Pairwise
      (fun p q => (nm q).key < (nm p).key) := by
  have hmem : ∀ p, p ∈ RBTree.before slot ∨ p ∈ RBTree.after slot → nm p = (d.entry p).1 := by
    intro p hp
    apply hnm
    rw [← h.mem_tree, RBTree.descend_slot hm.descend]
    exact List.mem_append.mpr hp
  have hs := h.sorted
  rw [RBTree.descend_slot hm.descend, List.pairwise_append] at hs
  obtain ⟨hs₁, hs₂, hs₁₂⟩ := hs
  rw [List.pairwise_append, List.pairwise_cons]
  refine ⟨?_, ⟨?_, ?_⟩, ?_⟩
  · refine hs₁.imp_of_mem ?_
    intro p q hp hq hlt
    rwa [hmem p (.inl hp), hmem q (.inl hq)]
  · intro q hq
    rw [hnew, hmem q (.inr hq)]
    exact hm.below q hq
  · refine hs₂.imp_of_mem ?_
    intro p q hp hq hlt
    rwa [hmem p (.inr hp), hmem q (.inr hq)]
  · intro p hp q hq
    rw [hmem p (.inl hp)]
    rcases List.mem_cons.mp hq with rfl | hq
    · rw [hnew]
      exact hm.above p hp
    · rw [hmem q (.inr hq)]
      exact hs₁₂ p hp q hq

/-- The new node joins the nodes that stay.  Some nodes of the linked tree may have been
erased. -/
theorem Inv.added (h : d.Inv) {slot : RBTree.Path Ptr} (hm : d.Missed name slot)
    (hl : (d.added (some name) idx use tree old heap).Linked) (hold : old ⊆ d.list)
    (hh : ∀ p ∈ old, heap p = d.heap p)
    (hwf : Lru.WF d.max.toNat (old.map d.entry ++ [(name, idx)])) (hbal : tree.IsBalanced)
    (hsub : tree.inorder.Sublist (RBTree.before slot ++ d.brk :: RBTree.after slot)) :
    (d.added (some name) idx use tree old heap).Inv := by
  have hb : ∀ p ∈ old, p < d.brk := fun p hp => h.fresh p (hold hp)
  have hs : (RBTree.before slot ++ d.brk :: RBTree.after slot).Pairwise (fun p q =>
      (if q = d.brk then name else (d.entry q).1).key <
        (if p = d.brk then name else (d.entry p).1).key) :=
    h.link_sorted hm (if_pos rfl) (fun p hp => if_neg (Nat.ne_of_lt (h.fresh p hp)))
  have hnm : ∀ p ∈ tree.inorder, ((d.added (some name) idx use tree old heap).entry p).1 =
      if p = d.brk then name else (d.entry p).1 := by
    intro p hp
    rcases List.mem_append.mp (hl.mem_tree.mp hp) with hp | hp
    · rw [added_entry_old (hb p hp) (hh p hp), if_neg (Nat.ne_of_lt (hb p hp))]
    · obtain rfl := List.mem_singleton.mp hp
      rw [added_entry_new, if_pos rfl]
  refine ⟨hl, ?_, ?_, hbal, ?_⟩
  · intro p hp
    rcases List.mem_append.mp hp with hp | hp
    · rw [added_entry_old (hb p hp) (hh p hp), added_heap_old (hb p hp), hh p hp]
      exact h.named p (hold hp)
    · obtain rfl := List.mem_singleton.mp hp
      rw [added_entry_new]
      exact added_heap_new
  · rw [added_cache hb hh]
    exact hwf
  · refine (hs.sublist hsub).imp_of_mem ?_
    intro p q hp hq hlt
    rwa [hnm p hp, hnm q hq]

end added

/-! ### The operations are those of the abstract cache -/

theorem find_of_missed {name : CStr} {slot : RBTree.Path Ptr} (hm : d.Missed name slot) :
    d.find name .ok = d.addNode slot (some name) := by
  simp [find, hm.descend]

/-- A miss while the cache has room takes the next index. -/
theorem Inv.find_room (h : d.Inv) {name : CStr} {slot : RBTree.Path Ptr} (hm : d.Missed name slot)
    (hroom : d.use < d.max.toNat) :
    ∃ d', d.find name .ok = some (d', (d.use : Int)) ∧ d'.Inv ∧
      d'.cache = d.cache ++ [(name, d.use)] := by
  obtain ⟨tree, ht, hbal⟩ := RBTree.link_balanced d.brk h.balanced hm.descend
  have hh : ∀ p ∈ d.list, (if p = d.brk then some ⟨some name, 0⟩ else d.heap p) = d.heap p :=
    fun p hp => if_neg (Nat.ne_of_lt (h.fresh p hp))
  have hf : d.find name .ok = some (d.added (some name) d.use (d.use + 1) tree d.list
      (fun p => if p = d.brk then some ⟨some name, 0⟩ else d.heap p), (d.use : Int)) := by
    have : (d.use : Int) < d.max := by omega
    rw [find_of_missed hm]
    simp [addNode, insert, ht, takeIndex, store, h.records_length, this, hroom]
    rfl
  refine ⟨_, hf, ?_, added_cache h.fresh hh⟩
  refine h.added hm (h.toLinked.find hf).1 (List.Subset.refl _) hh ?_ hbal
    (by rw [RBTree.inorder_link ht])
  have := h.wf.append hm.notMem (by rwa [h.length_cache])
  rwa [h.length_cache] at this

/-- A miss of a full cache takes the index of the least recent node. -/
theorem Inv.find_full (h : d.Inv) {name : CStr} {slot : RBTree.Path Ptr} (hm : d.Missed name slot)
    {q : Ptr} {rest : List Ptr} (hlist : d.list = q :: rest) (hfull : d.max.toNat ≤ d.use) :
    ∃ d', d.find name .ok = some (d', ((d.entry q).2 : Int)) ∧ d'.Inv ∧
      d'.cache = rest.map d.entry ++ [(name, (d.entry q).2)] := by
  have hq : q ∈ d.list := by simp [hlist]
  have hrest : rest ⊆ d.list := fun p hp => by simp [hlist, hp]
  have hqb : q ≠ d.brk := Nat.ne_of_lt (h.fresh q hq)
  have hqr : q ∉ rest := by
    have := h.nodup
    rw [hlist] at this
    exact (List.nodup_cons.mp this).1
  obtain ⟨tree₁, ht₁, hbal₁⟩ := RBTree.link_balanced d.brk h.balanced hm.descend
  have hperm₁ := h.link_perm hm.descend ht₁
  obtain ⟨tree, ht, hbal⟩ := RBTree.erase_balanced (q := (· == q)) hbal₁
    ⟨q, hperm₁.mem_iff.mpr (by simp [hq]), by simp⟩
  have hsub : tree.inorder.Sublist (RBTree.before slot ++ d.brk :: RBTree.after slot) := by
    obtain ⟨a, x, b, -, hin₁, hin⟩ := RBTree.inorder_erase ht
    rw [← RBTree.inorder_link ht₁, hin₁, hin]
    exact (List.sublist_cons_self _ _).append_left _
  have hh : ∀ p ∈ rest, (if p = q then none else if p = d.brk then some ⟨some name, 0⟩
      else d.heap p) = d.heap p := by
    intro p hp
    have hpq : p ≠ q := fun h' => hqr (h' ▸ hp)
    rw [if_neg hpq, if_neg (Nat.ne_of_lt (h.fresh p (hrest hp)))]
  have hf : d.find name .ok = some (d.added (some name) (d.entry q).2 d.use tree rest
      (fun p => if p = q then none else if p = d.brk then some ⟨some name, 0⟩ else d.heap p),
      ((d.entry q).2 : Int)) := by
    have hroom : ¬ (d.use : Int) < d.max := by omega
    have hidx : (d.entry q).2 < d.max.toNat :=
      lt_of_lt_of_le (h.wf.slot_lt (entry_mem hq)) h.wf.size
    rw [find_of_missed hm]
    simp [addNode, insert, ht₁, takeIndex, store, h.records_length, hroom, hidx, hlist, ht,
      h.named q hq, hqb, Ne.symm hqb]
    rfl
  refine ⟨_, hf, ?_, added_cache (fun p hp => h.fresh p (hrest hp)) hh⟩
  refine h.added hm (h.toLinked.find hf).1 hrest hh ?_ hbal hsub
  have hw := h.wf
  have hn := hm.notMem
  rw [cache, hlist, List.map_cons] at hw hn
  exact hw.replace (fun h' => hn (List.mem_cons_of_mem _ h'))

/-- `hev_mapped_dns_find` with successful allocation finds in the abstract cache. -/
theorem Inv.find_sim (h : d.Inv) (hmax : 0 < d.max.toNat) (name : CStr) :
    ∃ d', d.find name .ok = some (d', ((Lru.find d.max.toNat d.cache name).2 : Int)) ∧ d'.Inv ∧
      d'.cache = (Lru.find d.max.toNat d.cache name).1 ∧ d'.config = d.config := by
  suffices ∃ d', d.find name .ok = some (d', ((Lru.find d.max.toNat d.cache name).2 : Int)) ∧
      d'.Inv ∧ d'.cache = (Lru.find d.max.toNat d.cache name).1 by
    obtain ⟨d', hf, hi, hc⟩ := this
    exact ⟨d', hf, hi, hc, (h.toLinked.find hf).2⟩
  obtain ⟨p, slot, hd, hp, rfl⟩ | ⟨slot, hm⟩ := h.descend_cases name
  · rw [h.wf.find_mem (entry_mem hp)]
    refine ⟨d.touch p, ?_, h.touch hp, h.touch_cache hp⟩
    simp [find, hd, h.named p hp]
  · rw [Lru.find_notMem hm.notMem]
    unfold Lru.miss
    rw [h.length_cache]
    by_cases hroom : d.use < d.max.toNat
    · rw [if_pos hroom]
      exact h.find_room hm hroom
    · rw [if_neg hroom]
      cases hlist : d.list with
      | nil =>
          have := h.use_eq
          rw [hlist, List.length_nil] at this
          omega
      | cons q rest =>
          have hc : d.cache = d.entry q :: rest.map d.entry := by rw [cache, hlist, List.map_cons]
          rw [hc]
          exact h.find_full hm hlist (Nat.le_of_not_lt hroom)

/-- `hev_mapped_dns_lookup` of an address whose host part is the number `i` looks up the
abstract cache. -/
theorem Inv.lookup_sim (h : d.Inv) {ip : BitVec 32} {i : ℕ} (hi : d.hostIndex ip = i) :
    ∃ d', d.lookup ip = some (d', (Lru.lookup d.cache i).2) ∧ d'.Inv ∧
      d'.cache = (Lru.lookup d.cache i).1 ∧ d'.config = d.config := by
  obtain ⟨hneg, -, -⟩ | ⟨hge, hf⟩ | ⟨p, hp, node, hnode, hpi, -, hf⟩ := h.lookup_cases ip
  · omega
  · have hle : d.use ≤ d.max.toNat := h.size
    rw [h.wf.lookup_ge (by rw [h.length_cache]; omega)]
    exact ⟨d, hf, h, rfl, rfl⟩
  · have hie : i = (d.entry p).2 := by
      rw [← h.index_eq hp]
      omega
    have hn : node.name = some (d.entry p).1 := by
      have := h.named p hp
      rw [hnode] at this
      cases this
      rfl
    rw [hie, h.wf.lookup_mem (entry_mem hp), ← hn]
    exact ⟨d.touch p, hf, h.touch hp, h.touch_cache hp, rfl⟩

end inv

end MappedDNS
end HevTunnel
