import HevTunnel.AckQueue
import HevTunnel.RingBuffer
import HevTunnel.Transition

/-! # The ring buffer as a queue

`RingRun` is a ring buffer together with the bytes that were written to it and the bytes that were
taken out.  Its steps are the operations as the callers use them: filling the segments of
`hev_ring_buffer_writing` and `write_finish`, taking bytes from the segments of
`hev_ring_buffer_reading` and `read_finish`, and `read_release`.

`RingRun.refines_ackQueue` is the result: a run of the ring buffer is a run of the queue, and in
every state the segments, the cursors and the bytes are as a queue with an acknowledged tail wants
them (`Sound`).

The model adds natural numbers where the source adds `size_t`.  `sums` are these additions, and they
do not overflow, since an object is smaller than `2 ^ 63` bytes. -/

namespace HevTunnel

namespace RingBuffer

/-- The cells that were written and not released, the oldest first. -/
def heldCells (self : RingBuffer) : List ℕ :=
  around self.maxSize (self.wp + (self.maxSize - self.useSize)) self.useSize

/-- The subtractions of `span`, each as its two operands. -/
def spanSubtractions (self : RingBuffer) (p size : ℕ) : List (ℕ × ℕ) :=
  let upper := sizeSub self.maxSize p
  (self.maxSize, p) :: if size ≤ upper then [] else [(size, upper)]

/-- The subtractions of `size_t` that an operation makes. -/
def subtractions (self : RingBuffer) : QueueOp Byte → List (ℕ × ℕ)
  | .write _ =>
      if self.useSize = self.maxSize then []
      else (self.maxSize, self.useSize) ::
        self.spanSubtractions self.wp (sizeSub self.maxSize self.useSize)
  | .read n =>
      (if self.rdaSize = 0 then [] else self.spanSubtractions self.rp self.rdaSize) ++
        [(self.rdaSize, n)]
  | .release n => [(self.useSize, n)]

/-- The sums of `size_t` that an operation makes. -/
def sums (self : RingBuffer) : QueueOp Byte → List ℕ
  | .write bs => [self.wp + bs.length, self.useSize + bs.length, self.rdaSize + bs.length]
  | .read n => [self.rp + n]
  | .release _ => []

theorem length_iovCells (iov : List Iovec) : (iovCells iov).length = (iov.map Iovec.len).sum := by
  simp [iovCells, Iovec.cells, List.length_flatMap]

theorem span_le {r : RingBuffer} {p size : ℕ} (hp : p < r.maxSize) (hsize : size ≤ r.maxSize)
    (hmax : r.maxSize < 2 ^ 64) : ∀ v ∈ r.span p size, v.base + v.len ≤ r.maxSize := by
  have hupper : sizeSub r.maxSize p = r.maxSize - p := sizeSub_eq (by omega) hmax
  intro v hv
  unfold span at hv
  simp only [hupper] at hv
  split_ifs at hv with h
  · rw [List.mem_singleton] at hv
    subst hv
    show p + size ≤ r.maxSize
    omega
  · rw [sizeSub_eq (by omega) (by omega), List.mem_pair] at hv
    rcases hv with rfl | rfl
    · show p + (r.maxSize - p) ≤ r.maxSize
      omega
    · show 0 + (size - (r.maxSize - p)) ≤ r.maxSize
      omega

theorem spanSubtractions_le {r : RingBuffer} {p size : ℕ} (hp : p ≤ r.maxSize) :
    ∀ d ∈ r.spanSubtractions p size, d.2 ≤ d.1 := by
  intro d hd
  simp only [spanSubtractions] at hd
  split_ifs at hd with h
  · rw [List.mem_singleton] at hd
    subst hd
    exact hp
  · rw [List.mem_pair] at hd
    rcases hd with rfl | rfl
    · exact hp
    · show sizeSub r.maxSize p ≤ size
      omega

namespace Regions
variable {r : RingBuffer} {start : ℕ} (h : r.Regions start)
include h

/-- The cells that are held are the lent and the unread ones. -/
theorem heldCells_eq : r.heldCells = r.lentCells start ++ r.unreadCells := by
  have hrda := h.rda_le
  have huse := h.use_le
  have hstart : (r.wp + (r.maxSize - r.useSize)) % r.maxSize = start % r.maxSize := by
    rw [h.wp_eq, Nat.mod_add_mod, show start + r.useSize + (r.maxSize - r.useSize)
      = start + r.maxSize by omega, Nat.add_mod_right]
  rw [heldCells, ← around_mod, hstart, around_mod, lentCells, unreadCells, h.rp_eq, around_mod,
    ← around_add, Nat.sub_add_cancel hrda]

theorem segments_le : ∀ v ∈ r.reading ++ r.writing, v.base + v.len ≤ r.maxSize := by
  have huse := h.use_le
  intro v hv
  rcases List.mem_append.mp hv with hv | hv
  · unfold reading at hv
    split_ifs at hv
    · cases hv
    · exact span_le h.rp_lt (h.rda_le.trans huse) h.max_lt v hv
  · unfold writing at hv
    split_ifs at hv
    · cases hv
    · rw [sizeSub_eq huse h.max_lt] at hv
      exact span_le h.wp_lt (Nat.sub_le _ _) h.max_lt v hv

theorem segments_disjoint :
    (r.reading ++ r.writing).Pairwise (fun v w => v.cells.Disjoint w.cells) := by
  have hnd : (iovCells (r.reading ++ r.writing)).Nodup := by
    have hring : (around r.maxSize start r.maxSize).Nodup := nodup_around (Nat.le_refl r.maxSize)
    rw [h.around_regions] at hring
    rw [List.append_assoc] at hring
    rw [iovCells, List.flatMap_append]
    change (iovCells r.reading ++ iovCells r.writing).Nodup
    rw [h.cells_reading]
    exact hring.of_append_right
  exact (List.nodup_flatMap.mp hnd).2

theorem sum_reading : (r.reading.map Iovec.len).sum = r.rdaSize := by
  rw [← length_iovCells, h.cells_reading, unreadCells, length_around]

theorem sum_writing : (r.writing.map Iovec.len).sum = r.maxSize - r.useSize := by
  rw [← length_iovCells, h.length_writing]

theorem wp_eq_add : r.wp = (r.rp + r.rdaSize) % r.maxSize := by
  have hrda := h.rda_le
  rw [h.wp_eq, h.rp_eq, Nat.mod_add_mod, Nat.add_assoc, Nat.sub_add_cancel hrda]

end Regions

end RingBuffer

/-- A ring buffer, the bytes written to it and the bytes taken out so far. -/
structure RingRun where
  ring : RingBuffer
  written : List Byte
  taken : List Byte

namespace RingRun

/-- A ring buffer of `max` bytes, in memory with any contents. -/
def init (max : ℕ) (data : Mem) : RingRun := ⟨.alloca max data, [], []⟩

/-- Bytes stored through the segments of `hev_ring_buffer_writing`, and `write_finish`. -/
def write (s : RingRun) (bs : List Byte) : RingRun :=
  { s with
    ring := { s.ring with
      data := s.ring.data.scatter (iovCells s.ring.writing) bs }.writeFinish bs.length
    written := s.written ++ bs }

/-- `n` bytes taken through the segments of `hev_ring_buffer_reading`, and `read_finish`. -/
def read (s : RingRun) (n : ℕ) : RingRun :=
  { s with
    ring := s.ring.readFinish n
    taken := s.taken ++ ((iovCells s.ring.reading).take n).map s.ring.data }

/-- The operations, as far as the callers may use them. -/
def step (s : RingRun) : QueueOp Byte → Option RingRun
  | .write bs =>
      if bs.length ≤ s.ring.maxSize - s.ring.useSize then some (s.write bs) else none
  | .read n => if n ≤ s.ring.rdaSize then some (s.read n) else none
  | .release n =>
      if n ≤ s.ring.useSize - s.ring.rdaSize then
        some { s with ring := s.ring.readRelease n }
      else none

/-- The ring buffer holds the lent and the unread bytes of the queue. -/
structure Holds {max : ℕ} (s : RingRun) (q : AckQueue Byte max) : Prop where
  regions : ∃ start, s.ring.Regions start ∧ (s.ring.lentCells start).map s.ring.data = q.lent
  unread : s.ring.unread = q.unread
  maxSize : s.ring.maxSize = max
  written : s.written = q.written
  taken : s.taken = q.written.take q.taken

theorem init_holds {max : ℕ} (h₀ : 0 < max) (hmax : max < 2 ^ 64) (data : Mem) :
    (init max data).Holds (.empty : AckQueue Byte max) :=
  ⟨⟨0, RingBuffer.alloca_regions data h₀ hmax, rfl⟩, rfl, rfl, rfl, rfl⟩

namespace Holds
variable {max : ℕ} {s s' : RingRun} {q : AckQueue Byte max} {x : QueueOp Byte}

theorem rdaSize (h : s.Holds q) : s.ring.rdaSize = q.unread.length := by
  rw [← h.unread]
  simp [RingBuffer.unread, RingBuffer.unreadCells]

theorem lentSize (h : s.Holds q) : s.ring.useSize - s.ring.rdaSize = q.lent.length := by
  obtain ⟨start, -, hlent⟩ := h.regions
  rw [← hlent]
  simp [RingBuffer.lentCells]

theorem useSize (h : s.Holds q) : s.ring.useSize = q.lent.length + q.unread.length := by
  obtain ⟨start, hr, -⟩ := h.regions
  have hle := hr.rda_le
  have hrda := h.rdaSize
  have hlent := h.lentSize
  omega

/-- The ring buffer lets an operation through exactly if the queue does. -/
theorem exists_step_iff (h : s.Holds q) : (∃ s', s.step x = some s') ↔ ∃ q', q.step x = some q' := by
  have hmax := h.maxSize
  have huse := h.useSize
  have hrda := h.rdaSize
  have hlent := h.lentSize
  rw [q.exists_step_iff]
  cases x with
  | write bs =>
      simp only [RingRun.step, AckQueue.Allows]
      split_ifs with hbs
      · exact iff_of_true ⟨_, rfl⟩ (by omega)
      · exact iff_of_false (by simp) (by omega)
  | read n =>
      simp only [RingRun.step, AckQueue.Allows]
      split_ifs with hn
      · exact iff_of_true ⟨_, rfl⟩ (by omega)
      · exact iff_of_false (by simp) (by omega)
  | release n =>
      simp only [RingRun.step, AckQueue.Allows]
      split_ifs with hn
      · exact iff_of_true ⟨_, rfl⟩ (by omega)
      · exact iff_of_false (by simp) (by omega)

/-- A step of the ring buffer is a step of the queue. -/
theorem step (h : s.Holds q) (hs : s.step x = some s') :
    ∃ q', q.step x = some q' ∧ s'.Holds q' := by
  obtain ⟨q', hq'⟩ := h.exists_step_iff.mp ⟨s', hs⟩
  obtain ⟨start, hr, hlent⟩ := h.regions
  refine ⟨q', hq', ?_⟩
  rcases AckQueue.step_cases hq' with ⟨bs, rfl, hw, ht, hl, hu⟩ | ⟨n, rfl, hw, ht, hl, hu⟩ |
    ⟨n, rfl, hw, ht, hl, hu⟩
  · simp only [RingRun.step] at hs
    split_ifs at hs with hbs
    cases hs
    obtain ⟨hr', hcells, hunread, hkept⟩ := hr.writeFinish hbs
    refine ⟨⟨start, hr', ?_⟩, ?_, h.maxSize, ?_, ?_⟩
    · rw [hl, ← hlent, ← hkept]
      exact congrArg _ hcells
    · rw [hu, ← h.unread]
      exact hunread
    · rw [hw, ← h.written]
      rfl
    · rw [hw, ht, List.take_append_of_le_length q.taken_le]
      exact h.taken
  · simp only [RingRun.step] at hs
    split_ifs at hs with hn
    cases hs
    obtain ⟨hr', hcells, hunread⟩ := hr.readFinish hn
    refine ⟨⟨start, hr', ?_⟩, ?_, h.maxSize, ?_, ?_⟩
    · show ((s.ring.readFinish n).lentCells start).map s.ring.data = q'.lent
      rw [hcells, hl, ← hlent, ← h.unread, List.map_append, List.map_take]
      rfl
    · show ((s.ring.readFinish n).unreadCells).map s.ring.data = q'.unread
      rw [hunread, hu, ← h.unread, List.map_drop]
      rfl
    · rw [hw]
      exact h.written
    · show s.taken ++ ((iovCells s.ring.reading).take n).map s.ring.data = _
      rw [hw, ht, List.take_add, ← h.taken, hr.cells_reading, List.map_take]
      exact congrArg (fun bs => s.taken ++ bs.take n) h.unread
  · simp only [RingRun.step] at hs
    split_ifs at hs with hn
    cases hs
    obtain ⟨start', hr', hcells, hunread⟩ := hr.readRelease hn
    refine ⟨⟨start', hr', ?_⟩, ?_, ?_, ?_, ?_⟩
    · show ((s.ring.readRelease n).lentCells start').map (s.ring.readRelease n).data = q'.lent
      rw [hcells, hl, ← hlent, RingBuffer.data_readRelease, List.map_drop]
    · show ((s.ring.readRelease n).unreadCells).map (s.ring.readRelease n).data = q'.unread
      rw [hunread, hu, ← h.unread, RingBuffer.data_readRelease]
      rfl
    · show (s.ring.readRelease n).maxSize = max
      rw [RingBuffer.maxSize_readRelease, h.maxSize]
    · rw [hw]
      exact h.written
    · rw [hw, ht]
      exact h.taken

end Holds

/-! ### What holds in every state -/

/-- The state is that of a queue with an acknowledged tail: the cursors and sizes, the segments, the
bytes, and the arithmetic of the next operation. -/
structure Sound (s : RingRun) : Prop where
  rda_le : s.ring.rdaSize ≤ s.ring.useSize
  use_le : s.ring.useSize ≤ s.ring.maxSize
  rp_lt : s.ring.rp < s.ring.maxSize
  wp_lt : s.ring.wp < s.ring.maxSize
  wp_eq : s.ring.wp = (s.ring.rp + s.ring.rdaSize) % s.ring.maxSize
  segments_le : ∀ v ∈ s.ring.reading ++ s.ring.writing, v.base + v.len ≤ s.ring.maxSize
  segments_disjoint :
    (s.ring.reading ++ s.ring.writing).Pairwise (fun v w => v.cells.Disjoint w.cells)
  sum_reading : (s.ring.reading.map Iovec.len).sum = s.ring.rdaSize
  sum_writing : (s.ring.writing.map Iovec.len).sum = s.ring.maxSize - s.ring.useSize
  taken_prefix : s.taken <+: s.written
  /-- The bytes that were written and not released are still in place. -/
  held : s.ring.heldCells.map s.ring.data = s.written.drop (s.written.length - s.ring.useSize)
  write_keeps : ∀ {bs s'}, s.step (.write bs) = some s' →
    ∀ c ∈ s.ring.heldCells, s'.ring.data c = s.ring.data c
  subtractions_le : ∀ {x s'}, s.step x = some s' → ∀ d ∈ s.ring.subtractions x, d.2 ≤ d.1
  sums_lt : ∀ {x s'}, s.step x = some s' → ∀ n ∈ s.ring.sums x, n < 2 ^ 64

section sound
variable {s s' : RingRun} {start : ℕ} {x : QueueOp Byte}

theorem subtractions_le (h : s.ring.Regions start) (hs : s.step x = some s') :
    ∀ d ∈ s.ring.subtractions x, d.2 ≤ d.1 := by
  have hrda := h.rda_le
  intro d hd
  cases x with
  | write bs =>
      simp only [RingBuffer.subtractions] at hd
      split_ifs at hd
      · cases hd
      · rcases List.mem_cons.mp hd with rfl | hd
        · exact h.use_le
        · exact RingBuffer.spanSubtractions_le h.wp_lt.le d hd
  | read n =>
      simp only [step] at hs
      split_ifs at hs with hn
      rcases List.mem_append.mp hd with hd | hd
      · split_ifs at hd
        · cases hd
        · exact RingBuffer.spanSubtractions_le h.rp_lt.le d hd
      · rw [List.mem_singleton] at hd
        subst hd
        exact hn
  | release n =>
      simp only [step] at hs
      split_ifs at hs with hn
      rw [RingBuffer.subtractions, List.mem_singleton] at hd
      subst hd
      show n ≤ s.ring.useSize
      omega

theorem sums_lt (h : s.ring.Regions start) (hmax : s.ring.maxSize < 2 ^ 63)
    (hs : s.step x = some s') : ∀ n ∈ s.ring.sums x, n < 2 ^ 64 := by
  have hrda := h.rda_le
  have huse := h.use_le
  have hrp := h.rp_lt
  have hwp := h.wp_lt
  intro n hn
  cases x with
  | write bs =>
      simp only [step] at hs
      split_ifs at hs with hbs
      simp only [RingBuffer.sums, List.mem_cons, List.not_mem_nil, or_false] at hn
      omega
  | read k =>
      simp only [step] at hs
      split_ifs at hs with hk
      simp only [RingBuffer.sums, List.mem_cons, List.not_mem_nil, or_false] at hn
      omega
  | release k => cases hn

theorem Holds.sound {max : ℕ} {q : AckQueue Byte max} (h : s.Holds q) (hmax : max < 2 ^ 63) :
    s.Sound := by
  obtain ⟨start, hr, hlent⟩ := h.regions
  have hheld : s.ring.heldCells.map s.ring.data = q.written.drop q.released := by
    rw [hr.heldCells_eq, List.map_append, hlent, ← q.lent_append_unread, ← h.unread]
    rfl
  refine ⟨hr.rda_le, hr.use_le, hr.rp_lt, hr.wp_lt, hr.wp_eq_add, hr.segments_le,
    hr.segments_disjoint, hr.sum_reading, hr.sum_writing, ?_, ?_, ?_, subtractions_le hr,
    sums_lt hr (h.maxSize ▸ hmax)⟩
  · rw [h.taken, h.written]
    exact List.take_prefix _ _
  · have hlen := h.useSize
    have h₁ := q.released_le
    have h₂ := q.taken_le
    rw [q.length_lent, q.length_unread] at hlen
    rw [hheld, h.written]
    congr 1
    omega
  · intro bs s' hs c hc
    simp only [RingRun.step] at hs
    split_ifs at hs
    cases hs
    rw [hr.heldCells_eq] at hc
    exact Mem.scatter_of_notMem (fun hc' => hr.free_disjoint hc hc')

end sound

/-- A run of the ring buffer is a run of the queue with an acknowledged tail. -/
theorem refines_ackQueue {max : ℕ} (h₀ : 0 < max) (hmax : max < 2 ^ 63) (data : Mem)
    {xs : List (QueueOp Byte)} {s : RingRun} (hs : runSteps step (init max data) xs = some s) :
    s.Sound ∧ ∃ q : AckQueue Byte max, runSteps AckQueue.step .empty xs = some q ∧ s.Holds q := by
  obtain ⟨q, hq, h⟩ : ∃ q : AckQueue Byte max, runSteps AckQueue.step .empty xs = some q ∧
      s.Holds q := by
    apply runSteps_simulation Holds _ (init_holds h₀ (by omega) data) hs
    exact fun h hs => h.step hs
  exact ⟨h.sound hmax, q, hq, h⟩

/-- A run on four cells that wraps around and fills the buffer. -/
def sampleOps : List (QueueOp Byte) :=
  [.write [1, 2, 3], .read 2, .release 1, .write [4, 5], .read 2, .release 3]

theorem refines_sampleOps : ∃ s, runSteps step (init 4 (fun _ => 0)) sampleOps = some s ∧ s.Sound ∧
    s.taken = [1, 2, 3, 4] := by
  have hrun : ((runSteps step (init 4 (fun _ => 0)) sampleOps).any
      (fun s => s.taken = [1, 2, 3, 4])) = true := by
    decide +kernel
  simp only [Option.any_eq_true, decide_eq_true_eq] at hrun
  obtain ⟨s, hs, htaken⟩ := hrun
  exact ⟨s, hs, (refines_ackQueue (by decide) (by decide) _ hs).1, htaken⟩

end RingRun

end HevTunnel
