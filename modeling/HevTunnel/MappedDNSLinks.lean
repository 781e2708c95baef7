import HevTunnel.MappedDNS
import Mathlib.Data.List.Range
import Mathlib.Data.List.Nodup

/-! # The three structures of the mapped DNS cache agree

`Linked d` relates the list, the tree and the array of a cache: they hold the same live nodes,
the nodes' indices are those below `use`, and the array leads from an index to its node.

It says nothing about names, so it survives every outcome of the allocator, a node left without
a name included: `Linked.find`, `Linked.lookup`.  `Linked.lookup_cases` is what a lookup can
do. -/

namespace HevTunnel
namespace MappedDNS

/-- The index stored in a node. -/
def index (d : MappedDNS) (p : Ptr) : ℕ :=
  match d.heap p with
  | some node => node.idx
  | none => 0

theorem index_of_heap {d : MappedDNS} {p : Ptr} {node : DNSNode} (h : d.heap p = some node) :
    d.index p = node.idx := by
  unfold index
  rw [h]

structure Linked (d : MappedDNS) : Prop where
  live : ∀ p ∈ d.list, ∃ node, d.heap p = some node
  fresh : ∀ p ∈ d.list, p < d.brk
  perm : d.tree.inorder.Perm d.list
  use_eq : d.use = d.list.length
  size : d.use ≤ d.max.toNat
  slots : (d.list.map d.index).Perm (List.range d.use)
  records_length : d.records.length = d.max.toNat
  taken : ∀ p ∈ d.list, d.records[d.index p]? = some (some p)
  free : ∀ i, d.use ≤ i → i < d.max.toNat → d.records[i]? = some none

theorem construct_linked {net mask : BitVec 32} {max : Int} {d : MappedDNS}
    (h : construct net mask max = some d) : d.Linked := by
  unfold construct at h
  split_ifs at h
  cases h
  refine ⟨by simp, by simp, by simp, rfl, by simp, by simp, by simp, by simp, ?_⟩
  intro i _ hi
  exact List.getElem?_replicate_of_lt hi

section linked
variable {d : MappedDNS}

theorem Linked.mem_tree (h : d.Linked) {p : Ptr} : p ∈ d.tree.inorder ↔ p ∈ d.list :=
  h.perm.mem_iff

theorem Linked.nodup (h : d.Linked) : d.list.Nodup :=
  List.Nodup.of_map d.index (h.slots.nodup_iff.mpr List.nodup_range)

theorem Linked.index_lt (h : d.Linked) {p : Ptr} (hp : p ∈ d.list) : d.index p < d.use :=
  List.mem_range.mp (h.slots.mem_iff.mp (List.mem_map_of_mem hp))

/-- Every index below `use` belongs to a node. -/
theorem Linked.exists_of_lt (h : d.Linked) {i : ℕ} (hi : i < d.use) :
    ∃ p ∈ d.list, d.index p = i :=
  List.mem_map.mp (h.slots.mem_iff.mpr (List.mem_range.mpr hi))

/-- The list nodes in order of recency with `p` moved to the end. -/
theorem touch_perm {p : Ptr} (hp : p ∈ d.list) : (d.touch p).list.Perm d.list :=
  List.perm_append_comm.trans (List.perm_cons_erase hp).symm

theorem Linked.touch (h : d.Linked) {p : Ptr} (hp : p ∈ d.list) : (d.touch p).Linked := by
  have hperm := touch_perm hp
  have hmem : ∀ q, q ∈ (d.touch p).list → q ∈ d.list := fun q hq => hperm.mem_iff.mp hq
  refine ⟨fun q hq => h.live q (hmem q hq), fun q hq => h.fresh q (hmem q hq),
    h.perm.trans hperm.symm, ?_, h.size, ?_, h.records_length,
    fun q hq => h.taken q (hmem q hq), h.free⟩
  · exact h.use_eq.trans hperm.length_eq.symm
  · exact (hperm.map _).trans h.slots

/-! ### Adding a node

`find` ends a miss by storing the new node.  What it does to the other structures before that
differs, so it is a parameter here: `old` are the nodes that stay. -/

/-- The cache after the new node `d.brk` was stored under `idx`. -/
def added (d : MappedDNS) (name : Option CStr) (idx use : ℕ) (tree : RBTree Ptr) (old : List Ptr)
    (heap : Ptr → Option DNSNode) : MappedDNS :=
  { d with
    use := use
    tree := tree
    list := old ++ [d.brk]
    records := d.records.set idx (some d.brk)
    heap := fun p => if p = d.brk then some ⟨name, idx⟩ else heap p
    brk := d.brk + 1 }

section added
variable {name : Option CStr} {idx use : ℕ} {tree : RBTree Ptr} {old : List Ptr}
  {heap : Ptr → Option DNSNode}

theorem added_heap_new : (d.added name idx use tree old heap).heap d.brk = some ⟨name, idx⟩ :=
  if_pos rfl

theorem added_heap_old {p : Ptr} (hb : p < d.brk) :
    (d.added name idx use tree old heap).heap p = heap p :=
  if_neg (Nat.ne_of_lt hb)

theorem added_index_new : (d.added name idx use tree old heap).index d.brk = idx :=
  index_of_heap added_heap_new

theorem added_index_old {p : Ptr} (hb : p < d.brk) (hh : heap p = d.heap p) :
    (d.added name idx use tree old heap).index p = d.index p := by
  unfold index
  rw [added_heap_old hb, hh]

/-- The new node joins the nodes that stay: what is left to show for the agreement. -/
theorem Linked.added (h : d.Linked) (hold : old ⊆ d.list) (hh : ∀ p ∈ old, heap p = d.heap p)
    (hperm : tree.inorder.Perm (old ++ [d.brk])) (huse : use = old.length + 1)
    (hsize : use ≤ d.max.toNat) (hslots : (old.map d.index ++ [idx]).Perm (List.range use))
    (hfree : ∀ i, use ≤ i → d.use ≤ i) :
    (d.added name idx use tree old heap).Linked := by
  have hb : ∀ p ∈ old, p < d.brk := fun p hp => h.fresh p (hold hp)
  have hidx : idx < use := List.mem_range.mp (hslots.mem_iff.mp (by simp))
  have hne : ∀ p ∈ old, idx ≠ d.index p := by
    intro p hp hpi
    have hn := hslots.nodup_iff.mpr List.nodup_range
    rw [List.nodup_append] at hn
    exact hn.2.2 (d.index p) (List.mem_map_of_mem hp) idx (by simp) hpi.symm
  have hmap : old.map (d.added name idx use tree old heap).index = old.map d.index :=
    List.map_congr_left (fun p hp => added_index_old (hb p hp) (hh p hp))
  refine ⟨?_, ?_, hperm, by simp [MappedDNS.added, huse], hsize, ?_, ?_, ?_, ?_⟩
  · intro p hp
    rcases List.mem_append.mp hp with hp | hp
    · rw [added_heap_old (hb p hp), hh p hp]
      exact h.live p (hold hp)
    · rw [List.mem_singleton.mp hp]
      exact ⟨_, added_heap_new⟩
  · intro p hp
    show p < d.brk + 1
    rcases List.mem_append.mp hp with hp | hp
    · exact Nat.lt_succ_of_lt (hb p hp)
    · rw [List.mem_singleton.mp hp]
      exact Nat.lt_succ_self _
  · show ((old ++ [d.brk]).map _).Perm (List.range use)
    rw [List.map_append, hmap, List.map_singleton, added_index_new]
    exact hslots
  · show (d.records.set idx (some d.brk)).length = d.max.toNat
    rw [List.length_set, h.records_length]
  · intro p hp
    show (d.records.set idx (some d.brk))[_]? = _
    rcases List.mem_append.mp hp with hp | hp
    · rw [added_index_old (hb p hp) (hh p hp), List.getElem?_set_ne (hne p hp)]
      exact h.taken p (hold hp)
    · obtain rfl := List.mem_singleton.mp hp
      rw [added_index_new, List.getElem?_set_self (by rw [h.records_length]; omega)]
  · intro i hi hmax
    show (d.records.set idx (some d.brk))[i]? = _
    have hne : idx ≠ i := Nat.ne_of_lt (Nat.lt_of_lt_of_le hidx hi)
    rw [List.getElem?_set_ne hne]
    exact h.free i (hfree i hi) hmax

end added

/-! ### The operations -/

/-- The linked tree holds the nodes of the cache and the new one. -/
theorem Linked.link_perm (h : d.Linked) {cmp : Ptr → Option Int} {slot : RBTree.Path Ptr}
    (hd : d.tree.descend cmp [] = some (none, slot)) {tree : RBTree Ptr}
    (ht : RBTree.link d.brk slot = some tree) : tree.inorder.Perm (d.list ++ [d.brk]) := by
  rw [RBTree.inorder_link ht]
  refine List.perm_middle.trans ?_
  rw [← RBTree.descend_slot hd]
  exact (h.perm.cons _).trans (List.perm_append_singleton _ _).symm

/-- Erasing a node takes it out of the tree and nothing else. -/
theorem erase_perm {tree tree' : RBTree Ptr} {q : Ptr} {rest : List Ptr}
    (h : tree.erase (· == q) = some tree') (hp : tree.inorder.Perm (q :: rest)) :
    tree'.inorder.Perm rest := by
  obtain ⟨a, x, b, hx, hin, hin'⟩ := RBTree.inorder_erase h
  obtain rfl : x = q := by simpa using hx
  rw [hin] at hp
  rw [hin']
  exact (List.perm_middle.symm.trans hp).cons_inv

theorem store_eq_some {p : Ptr} {idx : ℕ} {d' : MappedDNS} (h : d.store p idx = some d') :
    idx < d.records.length ∧ ∃ node, d.heap p = some node ∧
      d' = { d with
        records := d.records.set idx (some p)
        heap := fun q => if q = p then some { node with idx := idx } else d.heap q } := by
  unfold store at h
  split_ifs at h with hidx
  simp only [Option.bind_eq_bind, Option.bind_eq_some_iff, Option.pure_def,
    Option.some.injEq] at h
  obtain ⟨node, hnode, rfl⟩ := h
  exact ⟨hidx, node, hnode, rfl⟩

/-- What adding a node can do: store it under the next index, or under the index of the least
recent node. -/
theorem Linked.addNode_cases (hl : d.Linked) {cmp : Ptr → Option Int} {slot : RBTree.Path Ptr}
    (hd : d.tree.descend cmp [] = some (none, slot)) {nm : Option CStr} {d' : MappedDNS} {r : Int}
    (h : d.addNode slot nm = some (d', r)) :
    (∃ tree heap, tree.inorder.Perm (d.list ++ [d.brk]) ∧ d.use < d.max.toNat ∧
      (∀ p ∈ d.list, heap p = d.heap p) ∧
      d' = d.added nm d.use (d.use + 1) tree d.list heap ∧ r = d.use) ∨
    (∃ tree heap q rest, d.list = q :: rest ∧ tree.inorder.Perm (rest ++ [d.brk]) ∧
      (∀ p ∈ rest, heap p = d.heap p) ∧
      d' = d.added nm (d.index q) d.use tree rest heap ∧ r = d.index q) := by
  simp only [addNode, insert, Option.bind_eq_bind, Option.bind_eq_some_iff, Option.pure_def,
    Option.some.injEq] at h
  obtain ⟨_, ⟨tree₁, ht₁, rfl⟩, ⟨d₂, idx⟩, htake, d₃, hstore, h⟩ := h
  obtain ⟨rfl, rfl⟩ : d₃ = d' ∧ (idx : Int) = r := by simpa using h
  have hperm := hl.link_perm hd ht₁
  obtain ⟨hidx, node, hnode, rfl⟩ := store_eq_some hstore
  unfold takeIndex at htake
  split_ifs at htake with hroom
  · cases htake
    obtain rfl : (⟨nm, 0⟩ : DNSNode) = node := by simpa using hnode
    refine .inl ⟨tree₁, _, hperm, by simp only at hroom; omega, ?_, rfl, rfl⟩
    intro p hp
    exact if_neg (Nat.ne_of_lt (hl.fresh p hp))
  · simp only [Option.bind_eq_bind, Option.bind_eq_some_iff, Option.pure_def,
      Option.some.injEq, Prod.mk.injEq] at htake
    obtain ⟨q, hq, nf, hnf, tree, ht, rfl, rfl⟩ := htake
    cases hlist : d.list with
    | nil =>
        -- the new node itself would be the least recent one, and there is no record for it
        have huse := hl.use_eq
        have hlen : d.records.length = d.max.toNat := hl.records_length
        simp only [hlist, List.length_nil] at huse
        simp only at hidx hroom
        omega
    | cons x rest =>
        obtain rfl : x = q := by simpa [hlist] using hq
        have hx : x ∈ d.list := by simp [hlist]
        have hxb : x ≠ d.brk := Nat.ne_of_lt (hl.fresh x hx)
        have hxr : x ∉ rest := by
          have := hl.nodup
          rw [hlist] at this
          exact (List.nodup_cons.mp this).1
        have hnfx : nf.idx = d.index x := by
          rw [index_of_heap (by simpa [hxb] using hnf)]
        obtain rfl : (⟨nm, 0⟩ : DNSNode) = node := by simpa [Ne.symm hxb] using hnode
        rw [hlist] at hperm
        refine .inr ⟨tree, fun p => if p = x then none else if p = d.brk then some ⟨nm, 0⟩
          else d.heap p, x, rest, rfl, erase_perm ht hperm, ?_, ?_, by rw [hnfx]⟩
        · intro p hp
          have hpx : p ≠ x := fun h' => hxr (h' ▸ hp)
          exact (if_neg hpx).trans (if_neg (Nat.ne_of_lt (hl.fresh p (by simp [hlist, hp]))))
        · simp [hnfx, MappedDNS.added]

/-- What `find` can do: touch the node it finds, fail to allocate, or add a node. -/
theorem Linked.find_cases (hl : d.Linked) {name : CStr} {alloc : Alloc} {d' : MappedDNS} {r : Int}
    (h : d.find name alloc = some (d', r)) :
    (∃ p ∈ d.list, d' = d.touch p ∧ r = d.index p) ∨
    (alloc = .noNode ∧ d' = d ∧ r = -1) ∨
    (∃ slot, d.tree.descend (d.compare name) [] = some (none, slot) ∧
      d.addNode slot (if alloc = .ok then some name else none) = some (d', r)) := by
  simp only [find, Option.bind_eq_bind, Option.bind_eq_some_iff] at h
  obtain ⟨⟨hit, slot⟩, hd, h⟩ := h
  cases hit with
  | some p =>
      simp only [Option.bind_eq_some_iff] at h
      obtain ⟨node, hnode, h⟩ := h
      obtain ⟨rfl, rfl⟩ : d.touch p = d' ∧ (node.idx : Int) = r := by simpa using h
      have hp := hl.mem_tree.mp (RBTree.descend_found hd).1
      exact .inl ⟨p, hp, rfl, by rw [index_of_heap hnode]⟩
  | none =>
      by_cases hno : alloc = .noNode
      · obtain ⟨rfl, rfl⟩ : d = d' ∧ -1 = r := by simpa [hno] using h
        exact .inr (.inl ⟨hno, rfl, rfl⟩)
      · exact .inr (.inr ⟨slot, hd, by simpa [hno] using h⟩)

/-- The configuration, which no operation changes. -/
def config (d : MappedDNS) : Int × BitVec 32 × BitVec 32 := (d.max, d.net, d.mask)

/-- `find` keeps the structures in agreement, whatever the allocator answers. -/
theorem Linked.find (hl : d.Linked) {name : CStr} {alloc : Alloc} {d' : MappedDNS} {r : Int}
    (h : d.find name alloc = some (d', r)) : d'.Linked ∧ d'.config = d.config := by
  obtain ⟨p, hp, rfl, -⟩ | ⟨-, rfl, -⟩ | ⟨slot, hd, h⟩ := hl.find_cases h
  · exact ⟨hl.touch hp, rfl⟩
  · exact ⟨hl, rfl⟩
  obtain ⟨tree, heap, hperm, hroom, hh, rfl, -⟩ | ⟨tree, heap, q, rest, hlist, hperm, hh, rfl, -⟩ :=
    hl.addNode_cases hd h
  · refine ⟨hl.added (List.Subset.refl _) hh hperm (by rw [hl.use_eq]) hroom ?_
      (fun i hi => by omega), rfl⟩
    rw [List.range_succ]
    exact hl.slots.append_right _
  · have hslots := hl.slots
    have huse := hl.use_eq
    rw [hlist] at hslots huse
    refine ⟨hl.added (by simp [hlist]) hh hperm (by simpa using huse) hl.size ?_
      (fun i hi => hi), rfl⟩
    exact List.perm_append_comm.trans hslots

/-- What a lookup can do: read outside the array, find nothing, or touch the node of the index
and return its name. -/
theorem Linked.lookup_cases (hl : d.Linked) (ip : BitVec 32) :
    (d.hostIndex ip < 0 ∧ d.hostIndex ip < d.max ∧ d.lookup ip = none) ∨
    ((d.max ≤ d.hostIndex ip ∨ (d.use : Int) ≤ d.hostIndex ip) ∧ d.lookup ip = some (d, none)) ∨
    (∃ p ∈ d.list, ∃ node, d.heap p = some node ∧ d.hostIndex ip = d.index p ∧
      d.hostIndex ip < d.max ∧ d.lookup ip = some (d.touch p, node.name)) := by
  by_cases hmax : d.max ≤ d.hostIndex ip
  · exact .inr (.inl ⟨.inl hmax, by simp [lookup, hmax]⟩)
  by_cases hneg : d.hostIndex ip < 0
  · exact .inl ⟨hneg, by omega, by simp [lookup, hmax, hneg]⟩
  by_cases huse : d.use ≤ (d.hostIndex ip).toNat
  · have hr := hl.free _ huse (by omega)
    exact .inr (.inl ⟨.inr (by omega), by simp [lookup, hmax, hneg, hr]⟩)
  · obtain ⟨p, hp, hpi⟩ := hl.exists_of_lt (Nat.lt_of_not_le huse)
    obtain ⟨node, hnode⟩ := hl.live p hp
    have hr := hl.taken p hp
    rw [hpi] at hr
    refine .inr (.inr ⟨p, hp, node, hnode, by omega, by omega, ?_⟩)
    simp [lookup, hmax, hneg, hr, hnode]

theorem Linked.lookup (hl : d.Linked) {ip : BitVec 32} {d' : MappedDNS} {r : Option CStr}
    (h : d.lookup ip = some (d', r)) : d'.Linked ∧ d'.config = d.config := by
  obtain ⟨-, -, h'⟩ | ⟨-, h'⟩ | ⟨p, hp, node, -, -, -, h'⟩ := hl.lookup_cases ip <;>
    rw [h'] at h <;> cases h
  · exact ⟨hl, rfl⟩
  · exact ⟨hl.touch hp, rfl⟩

end linked

end MappedDNS
end HevTunnel
