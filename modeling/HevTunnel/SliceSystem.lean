import HevTunnel.GuardedRun
import HevTunnel.SliceCache

/-! # Runs of the slice allocator

A client asks for blocks, changes their size and frees them.  `lent` holds the blocks in use with the
sizes that were asked for; it is all that a client can know, and a client frees only what is lent.

`Owned heap lent L` says whose the blocks of the heap are: each of them is in use or kept, and none is
both.  With `Cached` this is kept by every call, so that no call reads a block that is gone, no block is
lent twice, and a block in use has the bytes that were asked for and is not written.

A request is for at most `maxSize` bytes.  The index of a larger one may not fit into an `int`:
`2 ^ 38 + 1` bytes are answered with a block of 64. -/

namespace HevTunnel

/-- What is asked of the allocator.  `mem` is the answer of `malloc` or `realloc`, should it be called. -/
inductive AllocCall (α : Type)
  | alloc (size : ℕ) (mem : Option α)
  | realloc (ptr : α) (size : ℕ) (mem : Option α)
  | free (ptr : α)

/-- The largest request, `2 ^ 38 - 64`. -/
def maxSize : ℕ := 2 ^ 38 - 64

theorem le_alignUp {size : ℕ} (h : size ≤ maxSize) : size ≤ alignUp size := by
  simp only [maxSize, alignUp] at *
  omega

theorem sliceIndex_eq (size : ℕ) :
    sliceIndex size = if 2 * (size / 64 % 2 ^ 32) < 2 ^ 32 then ((size / 64 % 2 ^ 32 : ℕ) : ℤ)
      else ((size / 64 % 2 ^ 32 : ℕ) : ℤ) - 2 ^ 32 := by
  rw [sliceIndex, BitVec.toInt_eq_toNat_cond, BitVec.toNat_ofNat]
  rfl

theorem sliceIndex_eq_zero {size : ℕ} (h : size ≤ maxSize) :
    sliceIndex (alignUp size) = 0 ↔ size = 0 := by
  rw [sliceIndex_eq]
  simp only [maxSize, alignUp] at *
  split_ifs <;> omega

/-- The sizes of a class are rounded up to one. -/
theorem alignUp_eq_of_sliceClass {size : ℕ} {i : Fin 64} (h : size ≤ maxSize)
    (hi : sliceClass (sliceIndex (alignUp size)) = some i) : alignUp size = 64 * (i + 1) := by
  unfold sliceClass at hi
  split_ifs at hi with hindex
  have hval : (sliceIndex (alignUp size) - 1).toNat = i := congrArg Fin.val (Option.some_inj.mp hi)
  rw [sliceIndex_eq] at *
  simp only [maxSize, alignUp] at *
  split_ifs at * <;> omega

/-! ### Whose the blocks are -/

/-- An address of the heap: there is a block if it is in use or kept, and it is not both. -/
structure OwnedAt {α : Type} (block : Option (MemorySlice α)) (lent : Option ℕ) (kept : Prop) : Prop where
  /-- A block of a class has the size of the class. -/
  size : ∀ slice i, block = some slice → slice.index = some i → slice.size = 64 * (i + 1)
  /-- A block in use has the bytes that were asked for. -/
  room : ∀ n, lent = some n → ∃ slice, block = some slice ∧ n ≤ slice.size
  alive : kept → block ≠ none
  apart : kept → lent = none
  owned : block ≠ none → lent ≠ none ∨ kept

/-- The blocks of the heap are those in use and those that are kept. -/
def Owned {α : Type} (heap : α → Option (MemorySlice α)) (lent : α → Option ℕ) (K : Set α) : Prop :=
  ∀ a, OwnedAt (heap a) (lent a) (a ∈ K)

namespace Owned

variable {α : Type} {heap : α → Option (MemorySlice α)} {lent : α → Option ℕ} {K : Set α} {a : α}
variable {slice : MemorySlice α} {n : ℕ}

/-- A change at one address. -/
theorem change (h : Owned heap lent K) {heap' : α → Option (MemorySlice α)} {lent' : α → Option ℕ}
    {K' : Set α} (ha : OwnedAt (heap' a) (lent' a) (a ∈ K'))
    (hframe : ∀ b ≠ a, heap' b = heap b ∧ lent' b = lent b ∧ (b ∈ K' ↔ b ∈ K)) :
    Owned heap' lent' K' := by
  intro b
  by_cases hba : b = a
  · exact hba ▸ ha
  · obtain ⟨hheap, hlent, hK⟩ := hframe b hba
    rw [hheap, hlent, hK]
    exact h b

variable [DecidableEq α]

/-- A kept block is lent. -/
theorem take (h : Owned heap lent K) (hslice : heap a = some slice) (hn : n ≤ slice.size) :
    Owned heap (Function.update lent a (some n)) (K \ {a}) := by
  refine h.change (a := a) ⟨(h a).size, ?_, ?_, ?_, ?_⟩ fun b hb => by simp [hb]
  · simpa [hslice] using hn
  all_goals simp

/-- A new block is lent. -/
theorem malloc (h : Owned heap lent K) (ha : a ∉ K) (hn : n ≤ slice.size)
    (hsize : ∀ i, slice.index = some i → slice.size = 64 * (i + 1)) :
    Owned (Function.update heap a (some slice)) (Function.update lent a (some n)) K := by
  refine h.change (a := a) ⟨?_, ?_, ?_, ?_, ?_⟩ fun b hb => by simp [hb]
  · intro slice' i hb
    rw [Function.update_self, Option.some_inj] at hb
    exact hb ▸ hsize i
  · simpa using hn
  all_goals simp [ha]

/-- A block in use is given back to the system. -/
theorem release (h : Owned heap lent K) (ha : a ∉ K) :
    Owned (Function.update heap a none) (Function.update lent a none) K := by
  refine h.change (a := a) ⟨?_, ?_, ?_, ?_, ?_⟩ fun b hb => by simp [hb]
  all_goals simp [ha]

/-- A kept block is given back to the system. -/
theorem evict (h : Owned heap lent K) (ha : a ∈ K) :
    Owned (Function.update heap a none) lent (K \ {a}) := by
  refine h.change (a := a) ⟨?_, ?_, ?_, ?_, ?_⟩ fun b hb => by simp [hb]
  all_goals simp [(h a).apart ha]

/-- A block in use is kept. -/
theorem keep (h : Owned heap lent K) (hslice : heap a = some slice) (next : Option α) :
    Owned (Function.update heap a (some { slice with next := next })) (Function.update lent a none)
      (insert a K) := by
  refine h.change (a := a) ⟨?_, ?_, ?_, ?_, ?_⟩ fun b hb => by simp [hb]
  · intro slice' i hb
    rw [Function.update_self, Option.some_inj] at hb
    exact hb ▸ (h a).size slice i hslice
  all_goals simp

end Owned

/-! ### Calls -/

/-- The allocator, and the blocks in use with the sizes that were asked for. -/
structure SliceSystem (α : Type) where
  allocator : SliceAllocator α
  lent : α → Option ℕ

namespace AllocCall

variable {α : Type}

/-- The block that a call is about. -/
def ptr : AllocCall α → Option α
  | .alloc _ _ => none
  | .realloc ptr _ _ => some ptr
  | .free ptr => some ptr

/-- Bytes are asked for, and the system has them. -/
def Granted : AllocCall α → Prop
  | .alloc size mem => size ≠ 0 ∧ mem ≠ none
  | .realloc _ size mem => size ≠ 0 ∧ mem ≠ none
  | .free _ => False

/-- A call that a client may make: for a block that is lent, and for no more than `maxSize` bytes.
`malloc` answers with a new block, `realloc` also with the old one. -/
def Possible (c : SliceSystem α) : AllocCall α → Prop
  | .alloc size mem => size ≤ maxSize ∧ ∀ a ∈ mem, c.allocator.heap a = none
  | .realloc ptr size mem =>
      c.lent ptr ≠ none ∧ size ≤ maxSize ∧ ∀ a ∈ mem, a = ptr ∨ c.allocator.heap a = none
  | .free ptr => c.lent ptr ≠ none

variable [DecidableEq α]

instance decidablePossible (c : SliceSystem α) : DecidablePred (Possible c)
  | .alloc _ _ => inferInstanceAs (Decidable (_ ∧ _))
  | .realloc _ _ _ => inferInstanceAs (Decidable (_ ∧ _))
  | .free _ => inferInstanceAs (Decidable (_ ≠ _))

/-- The answer to a call, and the allocator after it. -/
def call (s : SliceAllocator α) : AllocCall α → Option (Option α × SliceAllocator α)
  | .alloc size mem => s.alloc size mem
  | .realloc ptr size mem => s.realloc ptr size mem
  | .free ptr => (s.free ptr).map fun s => (none, s)

/-- The blocks in use after a call that was answered with `answer`. -/
def lend (lent : α → Option ℕ) (answer : Option α) : AllocCall α → α → Option ℕ
  | .alloc size _ => answer.elim lent fun a => Function.update lent a (some size)
  | .realloc ptr size _ =>
      if size = 0 then Function.update lent ptr none
      else answer.elim lent fun a => Function.update (Function.update lent ptr none) a (some size)
  | .free ptr => Function.update lent ptr none

end AllocCall

namespace SliceSystem

variable {α : Type} [DecidableEq α]

/-- An allocator that was just made. -/
def init (node : Fin 64 → ListNode (Fin 64)) : SliceSystem α := ⟨.new node, fun _ => none⟩

/-- The system after a call. -/
def exec (c : SliceSystem α) (e : AllocCall α) : Option (SliceSystem α) :=
  (e.call c.allocator).map fun (answer, s) => ⟨s, e.lend c.lent answer⟩

/-- The system after some calls; `none` if one of them was not possible or read a block that is gone. -/
def runs : SliceSystem α → List (AllocCall α) → Option (SliceSystem α) :=
  GuardedRun.runs AllocCall.Possible exec

/-- What holds after every call; `L` are the blocks that are kept. -/
structure Sound (c : SliceSystem α) (L : Fin 64 → List α) : Prop where
  cached : c.allocator.Cached L
  bound : SliceAllocator.kept L ≤ 1000
  owned : Owned c.allocator.heap c.lent (SliceAllocator.blocks L)

/-- What a client may rely on when the call `e` is answered. -/
structure Answers (c : SliceSystem α) (e : AllocCall α) (answer : Option α) (s : SliceAllocator α) :
    Prop where
  /-- The block is not in use. -/
  unused : ∀ a ∈ answer, e.ptr ≠ some a → c.lent a = none
  granted : e.Granted → answer ≠ none
  /-- The other blocks in use are as they were. -/
  frame : ∀ a, c.lent a ≠ none → e.ptr ≠ some a → s.heap a = c.allocator.heap a

variable {c : SliceSystem α} {L : Fin 64 → List α} {e : AllocCall α}

omit [DecidableEq α] in
theorem Sound.init (node : Fin 64 → ListNode (Fin 64)) :
    Sound (init node : SliceSystem α) fun _ => [] := by
  refine ⟨.new node, by simp [SliceAllocator.kept], fun a => ?_⟩
  constructor <;> simp [SliceSystem.init, SliceAllocator.new, SliceAllocator.blocks]

omit [DecidableEq α] in
/-- A block that is lent is not kept. -/
theorem Sound.not_mem_blocks (h : Sound c L) {a : α} (ha : c.lent a ≠ none) :
    a ∉ SliceAllocator.blocks L := fun hmem => ha ((h.owned a).apart hmem)

/-- A block in use is given back to the system. -/
theorem Sound.release (h : Sound c L) {ptr : α} (hptr : c.lent ptr ≠ none) :
    Sound ⟨{ c.allocator with heap := Function.update c.allocator.heap ptr none },
      Function.update c.lent ptr none⟩ L :=
  ⟨h.cached.write (h.not_mem_blocks hptr) none, h.bound, h.owned.release (h.not_mem_blocks hptr)⟩

/-- There is room for one more block. -/
theorem Sound.make_room (h : Sound c L) :
    ∃ s L', (if 1000 ≤ c.allocator.cachedCount.toNat then c.allocator.evict else some c.allocator) = some s ∧
      SliceAllocator.kept L' < 1000 ∧ Sound ⟨s, c.lent⟩ L' ∧
      ∀ a, c.lent a ≠ none → s.heap a = c.allocator.heap a := by
  have hcount := h.cached.count
  split_ifs with hfull
  · obtain ⟨i, a, ys, s, hL, hs, h', hheap⟩ := h.cached.evict (by omega)
    have hkept := SliceAllocator.kept_update L i ys
    rw [hL, List.length_cons] at hkept
    have hbound := h.bound
    have ha : a ∈ SliceAllocator.blocks L := ⟨i, hL ▸ List.mem_cons_self⟩
    refine ⟨s, _, hs, by omega, ⟨h', by omega, ?_⟩, fun b hb => ?_⟩
    · simp only [hheap, h.cached.blocks_unlink hL]
      exact h.owned.evict ha
    · rw [hheap, Function.update_of_ne]
      rintro rfl
      exact h.not_mem_blocks hb ha
  · exact ⟨_, L, rfl, by omega, h, fun _ _ => rfl⟩

theorem Sound.free (h : Sound c L) {ptr : α} (hptr : c.lent ptr ≠ none) :
    ∃ s L', c.allocator.free ptr = some s ∧ Sound ⟨s, Function.update c.lent ptr none⟩ L' ∧
      ∀ a, c.lent a ≠ none → a ≠ ptr → s.heap a = c.allocator.heap a := by
  obtain ⟨n, hn⟩ := Option.ne_none_iff_exists'.mp hptr
  obtain ⟨slice, hslice, -⟩ := (h.owned ptr).room n hn
  cases hindex : slice.index with
  | none =>
      refine ⟨_, L, ?_, h.release hptr, fun a _ hne => Function.update_of_ne hne ..⟩
      simp only [SliceAllocator.free, hslice, Option.bind_eq_bind, Option.bind_some, hindex]
  | some i =>
      obtain ⟨s, L', hs, hroom, h', hframe⟩ := h.make_room
      have hslice' : s.heap ptr = some slice := (hframe ptr hptr).trans hslice
      obtain ⟨s', hs', hcached, hheap⟩ := h'.cached.link hslice' hindex (h'.not_mem_blocks hptr) hroom
      have hkept := SliceAllocator.kept_update L' i (ptr :: L' i)
      rw [List.length_cons] at hkept
      refine ⟨s', _, ?_, ⟨hcached, by omega, ?_⟩, fun a ha hne => ?_⟩
      · simp only [SliceAllocator.free, hslice, Option.bind_eq_bind, Option.bind_some, hindex, hs]
        exact hs'
      · simp only [hheap, SliceAllocator.blocks_link]
        exact h'.owned.keep hslice' _
      · rw [hheap, Function.update_of_ne hne]
        exact hframe a ha

/-- A new block is lent. -/
theorem Sound.new_block (h : Sound c L) {a : α} {slice : MemorySlice α} {size : ℕ}
    (hnew : c.allocator.heap a = none) (hsize : size ≤ slice.size)
    (hclass : ∀ i, slice.index = some i → slice.size = 64 * (i + 1)) :
    Sound ⟨{ c.allocator with heap := Function.update c.allocator.heap a (some slice) },
      Function.update c.lent a (some size)⟩ L := by
  have ha : a ∉ SliceAllocator.blocks L := fun hmem => (h.owned a).alive hmem hnew
  exact ⟨h.cached.write ha _, h.bound, h.owned.malloc ha hsize hclass⟩

omit [DecidableEq α] in
/-- There is a block at an address that is lent. -/
theorem Sound.lent_eq_none (h : Sound c L) {a : α} (ha : c.allocator.heap a = none) : c.lent a = none := by
  by_contra hne
  obtain ⟨n, hn⟩ := Option.ne_none_iff_exists'.mp hne
  obtain ⟨slice, hslice, -⟩ := (h.owned a).room n hn
  simp [ha] at hslice

/-- A request that is passed on to the system. -/
theorem Sound.malloc (h : Sound c L) {size : ℕ} {mem : Option α} {k : Option (Fin 64)}
    (hp : (AllocCall.alloc size mem).Possible c)
    (hclass : ∀ i : Fin 64, k = some i → alignUp size = 64 * (i + 1)) :
    ∃ answer s L', c.allocator.malloc mem k (alignUp size) = (answer, s) ∧
      Sound ⟨s, (AllocCall.alloc size mem).lend c.lent answer⟩ L' ∧
      c.Answers (.alloc size mem) answer s := by
  obtain ⟨hsize, hmem⟩ := hp
  cases mem with
  | none => exact ⟨none, _, L, rfl, h, by simp, fun hg => absurd rfl hg.2, fun _ _ _ => rfl⟩
  | some a =>
      have hnew := hmem a rfl
      refine ⟨some a, _, L, rfl, h.new_block hnew (le_alignUp hsize) hclass, ?_, by simp, fun b hb _ => ?_⟩
      · rintro b ⟨⟩ -
        exact h.lent_eq_none hnew
      · refine Function.update_of_ne ?_ ..
        rintro rfl
        exact hb (h.lent_eq_none hnew)

/-- A request that is answered with a block that was kept. -/
theorem Sound.take (h : Sound c L) {i : Fin 64} {a : α} {ys : List α} {size : ℕ} (hL : L i = a :: ys)
    (hsize : size ≤ 64 * (i + 1)) :
    Sound
      ⟨if ys.head? = none then { c.allocator.unlink i ys.head? with lru := c.allocator.lru.lruRemove i }
        else { c.allocator.unlink i ys.head? with lru := (c.allocator.lru.lruRemove i).lruInsert i },
        Function.update c.lent a (some size)⟩ (Function.update L i ys) := by
  obtain ⟨slice, hslice, hindex⟩ := h.cached.index i a (hL ▸ List.mem_cons_self)
  have hroom : size ≤ slice.size := by rwa [(h.owned a).size slice i hslice hindex]
  have hkept := SliceAllocator.kept_update L i ys
  rw [hL, List.length_cons] at hkept
  have hbound := h.bound
  refine ⟨h.cached.take hL, by omega, ?_⟩
  rw [h.cached.blocks_unlink hL]
  have howned := h.owned.take hslice hroom
  split_ifs <;> exact howned

theorem Sound.alloc (h : Sound c L) {size : ℕ} {mem : Option α}
    (hp : (AllocCall.alloc size mem).Possible c) :
    ∃ answer s L', c.allocator.alloc size mem = some (answer, s) ∧
      Sound ⟨s, (AllocCall.alloc size mem).lend c.lent answer⟩ L' ∧
      c.Answers (.alloc size mem) answer s := by
  have hsize := hp.1
  simp only [SliceAllocator.alloc, sliceIndex_eq_zero hsize]
  split_ifs with hzero
  · exact ⟨none, _, L, rfl, h, by simp, fun hg => absurd hzero hg.1, fun _ _ _ => rfl⟩
  cases hclass : sliceClass (sliceIndex (alignUp size)) with
  | none => simpa using h.malloc (k := none) hp (by simp)
  | some i =>
      have halign := alignUp_eq_of_sliceClass hsize hclass
      cases hL : L i with
      | nil =>
          have hfirst := (h.cached.chain i).head?_eq
          rw [hL] at hfirst
          simpa [hfirst] using h.malloc (k := some i) hp (by simp [halign])
      | cons a ys =>
          obtain ⟨hfirst, hnext, -⟩ := h.cached.first hL
          have hlent : c.lent a = none := (h.owned a).apart ⟨i, hL ▸ List.mem_cons_self⟩
          refine ⟨some a, _, _, ?_, h.take hL (halign ▸ le_alignUp hsize), ?_, by simp, fun b _ _ => ?_⟩
          · simp only [hfirst, hnext, Option.bind_eq_bind, Option.bind_some]
            rfl
          · rintro b ⟨⟩ -
            exact hlent
          · split_ifs <;> rfl

theorem Sound.realloc (h : Sound c L) {ptr : α} {size : ℕ} {mem : Option α}
    (hp : (AllocCall.realloc ptr size mem).Possible c) :
    ∃ answer s L', c.allocator.realloc ptr size mem = some (answer, s) ∧
      Sound ⟨s, (AllocCall.realloc ptr size mem).lend c.lent answer⟩ L' ∧
      c.Answers (.realloc ptr size mem) answer s := by
  obtain ⟨hptr, hsize, hmem⟩ := hp
  by_cases hzero : size = 0
  · obtain ⟨s, L', hs, h', hframe⟩ := h.free hptr
    refine ⟨none, s, L', by simp [SliceAllocator.realloc, hzero, hs], ?_, by simp,
      fun hg => absurd hzero hg.1, fun a ha hne => hframe a ha fun heq => hne (congrArg some heq.symm)⟩
    simpa [AllocCall.lend, hzero] using h'
  obtain ⟨n, hn⟩ := Option.ne_none_iff_exists'.mp hptr
  obtain ⟨slice, hslice, -⟩ := (h.owned ptr).room n hn
  simp only [SliceAllocator.realloc, if_neg hzero, hslice, Option.bind_eq_bind, Option.bind_some]
  cases mem with
  | none =>
      refine ⟨none, _, L, rfl, ?_, by simp, fun hg => absurd rfl hg.2, fun _ _ _ => rfl⟩
      simpa [AllocCall.lend, hzero] using h
  | some a =>
      -- the old block is given back before the new one is there, which may be at the same address
      have hnew : Function.update c.allocator.heap ptr none a = none := by
        rcases hmem a rfl with rfl | hnew
        · exact Function.update_self ..
        · by_cases hne : a = ptr
          · simp [hne]
          · simpa [hne] using hnew
      refine ⟨some a, _, L, rfl, ?_, ?_, by simp, fun b hb hne => ?_⟩
      · rw [AllocCall.lend, if_neg hzero]
        exact (h.release hptr).new_block hnew (le_alignUp hsize) fun i => alignUp_eq_of_sliceClass hsize
      · rintro b ⟨⟩ hne
        refine h.lent_eq_none ((hmem a rfl).resolve_left ?_)
        rintro rfl
        exact hne rfl
      · have hbp : b ≠ ptr := fun heq => hne (congrArg some heq.symm)
        have hba : b ≠ a := by
          rintro rfl
          rcases hmem b rfl with rfl | hnone
          · exact hbp rfl
          · exact hb (h.lent_eq_none hnone)
        simp [hbp, hba]

/-- A call that is possible is answered, and keeps the blocks in order. -/
theorem Sound.call (h : Sound c L) (hp : e.Possible c) :
    ∃ answer s L', e.call c.allocator = some (answer, s) ∧ Sound ⟨s, e.lend c.lent answer⟩ L' ∧
      c.Answers e answer s := by
  cases e with
  | alloc size mem => exact h.alloc hp
  | realloc ptr size mem => exact h.realloc hp
  | free ptr =>
      obtain ⟨s, L', hs, h', hframe⟩ := h.free hp
      refine ⟨none, s, L', by simp [AllocCall.call, hs], h', by simp, False.elim, fun a ha hne => ?_⟩
      exact hframe a ha fun heq => hne (congrArg some heq.symm)

theorem Sound.runs {c' : SliceSystem α} {es : List (AllocCall α)} (h : Sound c L)
    (hes : c.runs es = some c') : ∃ L', Sound c' L' := by
  refine GuardedRun.runs_invariant (I := fun c => ∃ L, Sound c L) ?_ ⟨L, h⟩ hes
  rintro c e c' ⟨L, h⟩ hp hc'
  obtain ⟨answer, s, L', hs, h', -⟩ := h.call hp
  rw [exec, hs] at hc'
  exact ⟨L', Option.some_inj.mp hc' ▸ h'⟩

/-! ### Results -/

/-- After every run a block in use has the bytes that were asked for, and the other blocks of the heap
are those in the lists of the allocator; it counts them, and they are at most 1000. -/
theorem runs_owned {node : Fin 64 → ListNode (Fin 64)} {es : List (AllocCall α)}
    (h : (init node).runs es = some c) :
    (∀ a n, c.lent a = some n → ∃ slice, c.allocator.heap a = some slice ∧ n ≤ slice.size) ∧
      (∃ L, c.allocator.Cached L ∧
        {a | c.allocator.heap a ≠ none ∧ c.lent a = none} = SliceAllocator.blocks L) ∧
      {a | c.allocator.heap a ≠ none ∧ c.lent a = none}.encard = c.allocator.cachedCount.toNat ∧
      c.allocator.cachedCount.toNat ≤ 1000 := by
  obtain ⟨L, hL⟩ := (Sound.init node).runs h
  have hblocks : {a | c.allocator.heap a ≠ none ∧ c.lent a = none} = SliceAllocator.blocks L := by
    ext a
    refine ⟨fun ha => ((hL.owned a).owned ha.1).resolve_left fun hne => hne ha.2, fun ha => ?_⟩
    exact ⟨(hL.owned a).alive ha, (hL.owned a).apart ha⟩
  refine ⟨fun a => (hL.owned a).room, ⟨L, hL.cached, hblocks⟩, ?_, hL.cached.count ▸ hL.bound⟩
  rw [hblocks, hL.cached.encard_blocks, hL.cached.count]

/-- Two blocks of 128 bytes and a large one; the small ones are freed, one of them is lent again, and the
large one shrinks. -/
def fewCalls : List (AllocCall ℕ) :=
  [.alloc 100 (some 1), .alloc 5000 (some 2), .alloc 120 (some 3), .free 1, .free 3, .alloc 128 none,
    .realloc 2 70 (some 4)]

theorem runs_owned_few : ∃ c L,
    (init fun _ => ⟨none, none⟩).runs fewCalls = some c ∧ c.lent 3 = some 128 ∧
    c.allocator.Cached L ∧ 1 ∈ SliceAllocator.blocks L ∧ 3 ∉ SliceAllocator.blocks L ∧
    (SliceAllocator.blocks L).encard = 1 := by
  have hrun : ∃ c ∈ (init fun _ => ⟨none, none⟩).runs fewCalls, c.lent 3 = some 128 ∧ c.lent 1 = none ∧
      c.allocator.heap 1 ≠ none ∧ c.allocator.cachedCount = 1 := by decide +kernel
  obtain ⟨c, hc, hlent₃, hlent₁, hheap₁, hcount⟩ := hrun
  obtain ⟨-, ⟨L, hL, hblocks⟩, hcard, -⟩ := runs_owned hc
  rw [hblocks] at hcard
  refine ⟨c, L, hc, hlent₃, hL, ?_, ?_, by simpa [hcount] using hcard⟩
  · exact hblocks ▸ ⟨hheap₁, hlent₁⟩
  · rw [← hblocks]
    exact fun h => absurd h.2 (by simp [hlent₃])

/-- After every run, a call that a client may make is answered: the block is not in use, it is there if
the system has the bytes, and no other block in use is written. -/
theorem runs_answers {node : Fin 64 → ListNode (Fin 64)} {es : List (AllocCall α)}
    (h : (init node).runs es = some c) (hp : e.Possible c) :
    ∃ answer s, e.call c.allocator = some (answer, s) ∧ c.Answers e answer s := by
  obtain ⟨L, hL⟩ := (Sound.init node).runs h
  obtain ⟨answer, s, -, hs, -, hans⟩ := hL.call hp
  exact ⟨answer, s, hs, hans⟩

theorem runs_answers_few : ∃ c answer s,
    (init fun _ => ⟨none, none⟩).runs fewCalls = some c ∧
    (AllocCall.alloc 65 none).call c.allocator = some (answer, s) ∧
    c.Answers (.alloc 65 none) answer s := by
  have hrun : ∃ c ∈ (init fun _ => ⟨none, none⟩).runs fewCalls, (AllocCall.alloc 65 none).Possible c := by
    decide +kernel
  obtain ⟨c, hc, hp⟩ := hrun
  obtain ⟨answer, s, hs, hans⟩ := runs_answers hc hp
  exact ⟨c, answer, s, hc, hs, hans⟩

/-- After every run, the end of the allocator frees all blocks but those in use. -/
theorem runs_destroy {node : Fin 64 → ListNode (Fin 64)} {es : List (AllocCall α)} {fuel : ℕ}
    (h : (init node).runs es = some c) (hfuel : 1064 ≤ fuel) :
    ∃ s, c.allocator.destroy fuel = some s ∧
      ∀ a, s.heap a = if c.lent a = none then none else c.allocator.heap a := by
  obtain ⟨L, hL⟩ := (Sound.init node).runs h
  have hbound := hL.bound
  obtain ⟨s, hs, hres⟩ := hL.cached.destroy (show 64 + SliceAllocator.kept L ≤ fuel by omega)
  refine ⟨s, hs, fun a => ?_⟩
  split_ifs with ha
  · by_cases hmem : a ∈ SliceAllocator.blocks L
    · exact (hres a).1 hmem
    · rw [(hres a).2 hmem]
      by_contra hne
      exact hmem (((hL.owned a).owned hne).resolve_left fun hne => hne ha)
  · exact (hres a).2 (hL.not_mem_blocks ha)

theorem runs_destroy_few : ∃ c s,
    (init fun _ => ⟨none, none⟩).runs fewCalls = some c ∧ c.allocator.destroy 1064 = some s ∧
    s.heap 1 = none ∧ s.heap 3 ≠ none := by
  have hrun : ∃ c ∈ (init fun _ => ⟨none, none⟩).runs fewCalls,
      c.lent 1 = none ∧ c.lent 3 ≠ none ∧ c.allocator.heap 3 ≠ none := by decide +kernel
  obtain ⟨c, hc, hlent₁, hlent₃, hheap⟩ := hrun
  obtain ⟨s, hs, hres⟩ := runs_destroy hc le_rfl
  exact ⟨c, s, hc, hs, by rw [hres, if_pos hlent₁], by rwa [hres, if_neg hlent₃]⟩

end SliceSystem

end HevTunnel
