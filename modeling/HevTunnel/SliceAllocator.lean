import HevTunnel.HevList
import HevTunnel.LinkedStack
import Mathlib.Tactic.Ring

/-! # The slice allocator

`hev-memory-allocator-slice.c` keeps blocks that are freed for the next request of their size.  Sizes are
rounded up to multiples of 64, and for each of the 64 sizes up to 4096 there is a list of free blocks.
The sizes whose list is not empty are in the list `lru`; when 1000 blocks are kept, the last size of this
list gives one of them back to the system.

The functions are those of the source, on a heap whose blocks have the header `HevMemorySlice` and a
size.  `mem` is the answer of `malloc` or `realloc`; a function that reads a block that does not exist
returns `none`. -/

namespace HevTunnel

/-! ### The list of sizes -/

namespace LinkedList

variable {α : Type*} [DecidableEq α]

/-- `_hev_memory_allocator_lru_insert`. -/
def lruInsert (l : LinkedList α) (x : α) : LinkedList α :=
  let l := l.setPrev x none
  let l := match l.head with
    | some h => (l.setNext x (some h)).setPrev h (some x)
    | none => l.setNext x none
  let l := { l with head := some x }
  if l.tail = none then { l with tail := some x } else l

/-- `_hev_memory_allocator_lru_remove`. -/
def lruRemove (l : LinkedList α) (x : α) : LinkedList α :=
  let l := match (l.node x).prev with
    | some p => l.setNext p (l.node x).next
    | none => l
  let l := match (l.node x).next with
    | some n => l.setPrev n (l.node x).prev
    | none => l
  let l := if l.head = some x then { l with head := (l.node x).next } else l
  if l.tail = some x then { l with tail := (l.node x).prev } else l

variable {l : LinkedList α} {xs : List α} {x : α}

theorem node_lruInsert (hx : l.head ≠ some x) (y : α) :
    (l.lruInsert x).node y =
      if y = x then ⟨l.head, none⟩
      else if l.head = some y then ⟨(l.node y).next, some x⟩ else l.node y := by
  have hhead : (l.setPrev x none).head = l.head := rfl
  simp only [lruInsert, hhead]
  cases hh : l.head with
  | none => split_ifs <;> simp_all [node_setNext, node_setPrev]
  | some h =>
      have hne : x ≠ h := by
        rintro rfl
        exact hx hh
      simp only [Option.some_inj, eq_comm (a := h)]
      split_ifs <;> simp_all [node_setNext, node_setPrev]

theorem head_lruInsert : (l.lruInsert x).head = some x := by
  simp only [lruInsert]
  split_ifs <;> rfl

theorem tail_lruInsert : (l.lruInsert x).tail = if l.tail = none then some x else l.tail := by
  have hhead : (l.setPrev x none).head = l.head := rfl
  simp only [lruInsert, hhead]
  cases l.head with
  | none =>
      have htail : ((l.setPrev x none).setNext x none).tail = l.tail := rfl
      simp only [htail]
      split_ifs <;> simp_all
  | some h =>
      have htail : (((l.setPrev x none).setNext x (some h)).setPrev h (some x)).tail = l.tail := rfl
      simp only [htail]
      split_ifs <;> simp_all

/-- A node in front of the list. -/
theorem Links.lruInsert (h : l.Links xs) (hx : x ∉ xs) : (l.lruInsert x).Links (x :: xs) := by
  have hhead : l.head ≠ some x := by
    rw [h.head]
    exact fun hin => hx (List.mem_of_head? hin)
  refine ⟨List.nodup_cons.mpr ⟨hx, h.nodup⟩, head_lruInsert, ?_, ?_⟩
  · rw [tail_lruInsert, h.tail]
    cases xs with
    | nil => rfl
    | cons y xs => simp
  · intro pre y post hsplit
    rw [node_lruInsert hhead]
    cases pre with
    | nil =>
        obtain ⟨rfl, rfl⟩ := List.cons.inj hsplit
        rw [if_pos rfl, h.head]
        rfl
    | cons z pre =>
        obtain ⟨rfl, rfl⟩ := List.cons.inj hsplit
        have hy : y ≠ x := by
          rintro rfl
          exact hx (by simp)
        rw [if_neg hy, h.node pre y post rfl, h.head]
        cases pre with
        | nil => simp
        | cons w pre =>
            have hw : w ≠ y := by
              rintro rfl
              have hnd := h.nodup
              simp at hnd
            simp [hw]

/-- The comparisons with the ends of the list find what the links of the node say. -/
theorem Links.lruRemove_eq_del {a b : List α} (h : l.Links (a ++ x :: b)) :
    l.lruRemove x = l.del x := by
  have hnode := h.node a x b rfl
  have hnd : x ∉ a ++ b := (List.nodup_cons.mp (List.nodup_middle.mp h.nodup)).1
  have hhead : l.head = some x ↔ a.getLast? = none := by
    rw [h.head, List.getLast?_eq_none_iff]
    cases a with
    | nil => simp
    | cons y a =>
        have hy : y ≠ x := by
          rintro rfl
          exact hnd (by simp)
        simp [hy]
  have htail : l.tail = some x ↔ b.head? = none := by
    rw [h.tail, List.head?_eq_none_iff]
    refine ⟨fun hlast => ?_, fun hb => by simp [hb]⟩
    by_contra hb
    exact getLast?_ne_some h.nodup hb hlast
  simp only [LinkedList.lruRemove, LinkedList.del, hnode]
  cases hp : a.getLast? with
  | none =>
      have hh := hhead.mpr hp
      cases hn : b.head? with
      | none => simp [hh, htail.mpr hn, hnode, hp, hn]
      | some n =>
          have hne : x ≠ n := by
            rintro rfl
            exact hnd (List.mem_append_right _ (List.mem_of_head? hn))
          have ht : l.tail ≠ some x := by simp [htail, hn]
          simp [hh, ht, hnode, hp, hn, LinkedList.setPrev, hne]
  | some p =>
      have hne : x ≠ p := by
        rintro rfl
        exact hnd (List.mem_append_left _ (List.mem_of_getLast? hp))
      have hh : l.head ≠ some x := by simp [hhead, hp]
      cases hn : b.head? with
      | none =>
          have ht := htail.mpr hn
          simp [hh, ht, hnode, hp, hn, LinkedList.setNext, hne]
      | some n =>
          have ht : l.tail ≠ some x := by simp [htail, hn]
          simp [hh, ht, hnode, hp, hn, LinkedList.setNext, LinkedList.setPrev, hne]

theorem Links.lruRemove {a b : List α} (h : l.Links (a ++ x :: b)) :
    (l.lruRemove x).Links (a ++ b) := by
  rw [h.lruRemove_eq_del]
  exact h.del

end LinkedList

/-! ### The allocator -/

/-- `HevMemorySlice`: the header of a block, and the bytes behind it.  `index` is `none` for a block that
is too large to be kept (`-1` in the source). -/
structure MemorySlice (α : Type*) where
  next : Option α
  index : Option (Fin 64)
  size : ℕ

/-- `HevMemoryAllocatorSlice`, and the blocks of the heap. -/
structure SliceAllocator (α : Type*) where
  lru : LinkedList (Fin 64)
  cachedCount : BitVec 32
  cachedMslices : Fin 64 → Option α
  heap : α → Option (MemorySlice α)

/-- `ALIGN_UP (size, CACHED_SLICE_ALIGN)`, in a `size_t`. -/
def alignUp (size : ℕ) : ℕ := (size + 63) % 2 ^ 64 / 64 * 64

/-- `index = size / CACHED_SLICE_ALIGN`, in an `int`. -/
def sliceIndex (size : ℕ) : ℤ := (BitVec.ofNat 32 (size / 64)).toInt

/-- The case `1 ... MAX_CACHED_SLICE_INDEX` of the switches on the index, with `index - 1`. -/
def sliceClass (index : ℤ) : Option (Fin 64) :=
  if h : 1 ≤ index ∧ index ≤ 64 then some ⟨(index - 1).toNat, by omega⟩ else none

namespace SliceAllocator

variable {α : Type} [DecidableEq α]

/-- `hev_memory_allocator_slice_new`. -/
def new (node : Fin 64 → ListNode (Fin 64)) : SliceAllocator α :=
  ⟨LinkedList.empty node, 0, fun _ => none, fun _ => none⟩

/-- `slice->next`. -/
def next (s : SliceAllocator α) (slice : α) : Option (Option α) := (s.heap slice).map MemorySlice.next

/-- A call of `malloc` that answers `mem`.  The link of the new block is not written; `free` writes it
before it is read. -/
def malloc (s : SliceAllocator α) (mem : Option α) (index : Option (Fin 64)) (size : ℕ) :
    Option α × SliceAllocator α :=
  match mem with
  | none => (none, s)
  | some slice => (some slice, { s with heap := Function.update s.heap slice (some ⟨none, index, size⟩) })

/-- `*owner = slice->next; self->cached_count--`. -/
def unlink (s : SliceAllocator α) (i : Fin 64) (next : Option α) : SliceAllocator α :=
  { s with
    cachedMslices := Function.update s.cachedMslices i next
    cachedCount := s.cachedCount - 1 }

/-- `_hev_memory_allocator_alloc`. -/
def alloc (s : SliceAllocator α) (size : ℕ) (mem : Option α) : Option (Option α × SliceAllocator α) :=
  let size := alignUp size
  let index := sliceIndex size
  if index = 0 then some (none, s)
  else match sliceClass index with
    | none => some (s.malloc mem none size)
    | some i =>
        match s.cachedMslices i with
        | none => some (s.malloc mem (some i) size)
        | some slice => do
            let next ← s.next slice
            let s := s.unlink i next
            let s := { s with lru := s.lru.lruRemove i }
            some (some slice, if next = none then s else { s with lru := s.lru.lruInsert i })

/-- The branch of `_hev_memory_allocator_free` that gives a block back: one of the size that is last in
the list `lru`. -/
def evict (s : SliceAllocator α) : Option (SliceAllocator α) := do
  let i ← s.lru.tail
  let slice ← s.cachedMslices i
  let next ← s.next slice
  let s := s.unlink i next
  let s := if next = none then { s with lru := s.lru.lruRemove i } else s
  some { s with heap := Function.update s.heap slice none }

/-- The end of `_hev_memory_allocator_free`: the block in front of the list of its size. -/
def link (s : SliceAllocator α) (i : Fin 64) (ptr : α) : Option (SliceAllocator α) := do
  let slice ← s.heap ptr
  let next := s.cachedMslices i
  let s := { s with
    heap := Function.update s.heap ptr (some { slice with next := next })
    cachedMslices := Function.update s.cachedMslices i (some ptr)
    cachedCount := s.cachedCount + 1 }
  some (if next = none then { s with lru := s.lru.lruInsert i } else s)

/-- `_hev_memory_allocator_free`. -/
def free (s : SliceAllocator α) (ptr : α) : Option (SliceAllocator α) := do
  let slice ← s.heap ptr
  match slice.index with
  | none => some { s with heap := Function.update s.heap ptr none }
  | some i =>
      (if 1000 ≤ s.cachedCount.toNat then s.evict else some s).bind fun s => s.link i ptr

/-- `_hev_memory_allocator_realloc`, where `realloc` answers `mem`. -/
def realloc (s : SliceAllocator α) (ptr : α) (size : ℕ) (mem : Option α) :
    Option (Option α × SliceAllocator α) :=
  if size = 0 then do
    let s ← s.free ptr
    some (none, s)
  else do
    let size := alignUp size
    let index := sliceIndex size
    let slice ← s.heap ptr
    match mem with
    | none => some (none, s)
    | some new =>
        let slice := { slice with index := sliceClass index, size := size }
        some (some new,
          { s with heap := Function.update (Function.update s.heap ptr none) new (some slice) })

/-- The inner loop of `_hev_memory_allocator_destroy`, from the block `iter` on. -/
def freeSlices : ℕ → (α → Option (MemorySlice α)) → Option α → Option (α → Option (MemorySlice α))
  | _, heap, none => some heap
  | 0, _, some _ => none
  | fuel + 1, heap, some iter => do
      let slice ← heap iter
      freeSlices fuel (Function.update heap iter none) slice.next

/-- The loop of `_hev_memory_allocator_destroy`, from the size `node` on. -/
def destroyFrom : ℕ → SliceAllocator α → Option (Fin 64) → Option (SliceAllocator α)
  | _, s, none => some s
  | 0, _, some _ => none
  | fuel + 1, s, some node => do
      let heap ← freeSlices fuel s.heap (s.cachedMslices node)
      destroyFrom fuel { s with heap := heap } (s.lru.node node).next

/-- `_hev_memory_allocator_destroy`. -/
def destroy (fuel : ℕ) (s : SliceAllocator α) : Option (SliceAllocator α) :=
  s.destroyFrom fuel s.lru.head

end SliceAllocator

end HevTunnel
