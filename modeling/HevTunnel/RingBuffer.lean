import HevTunnel.CString
import Mathlib.Data.List.Nodup
import Mathlib.Data.List.Range
import Mathlib.Data.Nat.ModEq

/-! # The ring buffer

`hev-ring-buffer.c` keeps a byte queue whose front part is lent out: bytes that have been read
(`read_finish`) stay in place until they are released (`read_release`).  From some cell `start`
on, the ring is divided into three regions: the lent cells, the unread cells and the free cells.

* `around max start n` are `n` cells of a ring of `max` cells, and `Mem.scatter` is what `readv`
  does to the memory.  Both are independent of the ring buffer.
* `Regions r start` ties the pointers and sizes of a ring buffer to the three regions, and each
  operation keeps it.  `cells_reading` and `cells_writing` say which cells the scatter lists
  name, whether or not they wrap around.
* `Regions.free_disjoint`: no free cell is lent or unread. -/

namespace HevTunnel

/-- Subtraction of `size_t`. -/
def sizeSub (a b : ℕ) : ℕ := (a + 2 ^ 64 - b) % 2 ^ 64

theorem sizeSub_eq {a b : ℕ} (h : b ≤ a) (ha : a < 2 ^ 64) : sizeSub a b = a - b := by
  unfold sizeSub
  omega

/-! ### Scatter lists -/

/-- `struct iovec`, with the offset of its first cell. -/
structure Iovec where
  base : ℕ
  len : ℕ
deriving DecidableEq

/-- The cells an entry names, in order. -/
def Iovec.cells (v : Iovec) : List ℕ := List.range' v.base v.len

/-- The cells a scatter list names, in order. -/
def iovCells (iov : List Iovec) : List ℕ := iov.flatMap Iovec.cells

/-- Bytes stored into cells one by one. -/
def Mem.scatter (m : Mem) : List ℕ → List Byte → Mem
  | c :: cs, b :: bs => Mem.scatter (m.write c b) cs bs
  | _, _ => m

theorem Mem.scatter_of_notMem {c : ℕ} : ∀ {m : Mem} {cs : List ℕ} {bs : List Byte}, c ∉ cs →
    m.scatter cs bs c = m c
  | m, [], bs, _ => rfl
  | m, d :: cs, [], _ => rfl
  | m, d :: cs, b :: bs, h => by
      rw [List.mem_cons, not_or] at h
      rw [Mem.scatter, Mem.scatter_of_notMem h.2, Mem.write, if_neg h.1]

/-- Cells that are not named keep their contents. -/
theorem Mem.map_scatter_of_disjoint {m : Mem} {cs ds : List ℕ} (bs : List Byte)
    (h : ds.Disjoint cs) : ds.map (m.scatter cs bs) = ds.map m :=
  List.map_congr_left (fun _ hc => Mem.scatter_of_notMem (h hc))

/-- Different cells hold what was stored. -/
theorem Mem.map_scatter : ∀ {m : Mem} {cs : List ℕ} {bs : List Byte}, cs.Nodup →
    bs.length ≤ cs.length → (cs.take bs.length).map (m.scatter cs bs) = bs
  | m, cs, [], _, _ => by simp
  | m, c :: cs, b :: bs, hnd, hle => by
      rw [List.nodup_cons] at hnd
      rw [List.length_cons, List.take_succ_cons, List.map_cons, Mem.scatter,
        Mem.scatter_of_notMem hnd.1, Mem.map_scatter hnd.2 (by simpa using hle)]
      simp [Mem.write]

/-! ### Cells around a ring -/

/-- `n` cells of a ring of `max` cells, from `start` on. -/
def around (max start n : ℕ) : List ℕ := (List.range n).map (fun i => (start + i) % max)

section around
variable {max start n k : ℕ}

@[simp]
theorem length_around : (around max start n).length = n := by
  simp [around]

@[simp]
theorem around_zero : around max start 0 = [] := rfl

@[simp]
theorem around_mod : around max (start % max) n = around max start n := by
  simp [around]

theorem around_add (m : ℕ) :
    around max start (m + n) = around max start m ++ around max (start + m) n := by
  simp [around, List.range_add, Function.comp_def, Nat.add_assoc]

theorem take_around (h : k ≤ n) : (around max start n).take k = around max start k := by
  obtain ⟨d, rfl⟩ := Nat.exists_eq_add_of_le h
  rw [around_add, List.take_append_of_le_length (by simp), List.take_of_length_le (by simp)]

theorem drop_around (h : k ≤ n) :
    (around max start n).drop k = around max (start + k) (n - k) := by
  obtain ⟨d, rfl⟩ := Nat.exists_eq_add_of_le h
  rw [around_add, List.drop_append_of_le_length (by simp), List.drop_of_length_le (by simp),
    Nat.add_sub_cancel_left, List.nil_append]

/-- Going around less than once meets no cell twice. -/
theorem nodup_around (h : n ≤ max) : (around max start n).Nodup := by
  apply List.Nodup.map_on _ List.nodup_range
  intro i hi j hj hij
  rw [List.mem_range] at hi hj
  have := Nat.ModEq.add_left_cancel' start hij
  rwa [Nat.ModEq, Nat.mod_eq_of_lt (by omega), Nat.mod_eq_of_lt (by omega)] at this

theorem around_of_le (h : start + n ≤ max) : around max start n = List.range' start n := by
  rw [List.range'_eq_map_range]
  apply List.map_congr_left
  intro i hi
  rw [List.mem_range] at hi
  exact Nat.mod_eq_of_lt (by omega)

/-- Cells that wrap around: the upper end of the ring and then the lower end. -/
theorem around_of_wrap (hs : start ≤ max) (hn : n ≤ max) (h : max ≤ start + n) :
    around max start n = List.range' start (max - start) ++ List.range' 0 (n - (max - start)) := by
  obtain ⟨d, rfl⟩ : ∃ d, n = (max - start) + d := ⟨n - (max - start), by omega⟩
  rw [around_add, around_of_le (by omega), Nat.add_sub_cancel_left,
    show start + (max - start) = max by omega, ← around_mod, Nat.mod_self, around_of_le (by omega)]

end around

/-! ### The operations -/

/-- `HevRingBuffer`; `data` is the memory its data lies in. -/
structure RingBuffer where
  rp : ℕ
  wp : ℕ
  rdaSize : ℕ
  useSize : ℕ
  maxSize : ℕ
  data : Mem

namespace RingBuffer

/-- `hev_ring_buffer_alloca`. -/
def alloca (size : ℕ) (data : Mem) : RingBuffer := ⟨0, 0, 0, 0, size, data⟩

/-- The scatter list of `size` bytes from offset `p` on. -/
def span (self : RingBuffer) (p size : ℕ) : List Iovec :=
  let upper := sizeSub self.maxSize p
  if size ≤ upper then [⟨p, size⟩]
  else [⟨p, upper⟩, ⟨0, sizeSub size upper⟩]

/-- `hev_ring_buffer_reading`. -/
def reading (self : RingBuffer) : List Iovec :=
  if self.rdaSize = 0 then [] else self.span self.rp self.rdaSize

theorem rdaSize_of_reading {self : RingBuffer} (h : self.reading = []) : self.rdaSize = 0 := by
  by_contra hz
  rw [reading, if_neg hz] at h
  simp only [span] at h
  split_ifs at h

/-- `hev_ring_buffer_read_finish`. -/
def readFinish (self : RingBuffer) (size : ℕ) : RingBuffer :=
  { self with rp := (self.rp + size) % self.maxSize, rdaSize := sizeSub self.rdaSize size }

/-- `hev_ring_buffer_read_release`. -/
def readRelease (self : RingBuffer) (size : ℕ) : RingBuffer :=
  let self := { self with useSize := sizeSub self.useSize size }
  if self.useSize = 0 then { self with rp := 0, wp := 0 } else self

/-- `hev_ring_buffer_writing`. -/
def writing (self : RingBuffer) : List Iovec :=
  if self.useSize = self.maxSize then []
  else self.span self.wp (sizeSub self.maxSize self.useSize)

/-- `hev_ring_buffer_write_finish`. -/
def writeFinish (self : RingBuffer) (size : ℕ) : RingBuffer :=
  { self with
    wp := (self.wp + size) % self.maxSize
    useSize := self.useSize + size
    rdaSize := self.rdaSize + size }

@[simp]
theorem data_readRelease (self : RingBuffer) (size : ℕ) :
    (self.readRelease size).data = self.data := by
  simp only [readRelease]
  split_ifs <;> rfl

@[simp]
theorem maxSize_readRelease (self : RingBuffer) (size : ℕ) :
    (self.readRelease size).maxSize = self.maxSize := by
  simp only [readRelease]
  split_ifs <;> rfl

@[simp]
theorem rdaSize_readRelease (self : RingBuffer) (size : ℕ) :
    (self.readRelease size).rdaSize = self.rdaSize := by
  simp only [readRelease]
  split_ifs <;> rfl

/-! ### The three regions -/

/-- The cells that have been read but not released; `start` is the oldest of them. -/
def lentCells (self : RingBuffer) (start : ℕ) : List ℕ :=
  around self.maxSize start (self.useSize - self.rdaSize)

/-- The cells with bytes to read. -/
def unreadCells (self : RingBuffer) : List ℕ := around self.maxSize self.rp self.rdaSize

/-- The bytes to read. -/
def unread (self : RingBuffer) : List Byte := self.unreadCells.map self.data

/-- From `start` on there are first the lent cells, then the unread and then the free ones. -/
structure Regions (r : RingBuffer) (start : ℕ) : Prop where
  max_pos : 0 < r.maxSize
  max_lt : r.maxSize < 2 ^ 64
  rda_le : r.rdaSize ≤ r.useSize
  use_le : r.useSize ≤ r.maxSize
  rp_eq : r.rp = (start + (r.useSize - r.rdaSize)) % r.maxSize
  wp_eq : r.wp = (start + r.useSize) % r.maxSize

theorem alloca_regions {size : ℕ} (data : Mem) (h₀ : 0 < size) (h : size < 2 ^ 64) :
    (alloca size data).Regions 0 :=
  ⟨h₀, h, Nat.le_refl _, Nat.zero_le _, (Nat.zero_mod _).symm, (Nat.zero_mod _).symm⟩

/-- The scatter list of at most `max` bytes names the cells around the ring. -/
theorem iovCells_span {r : RingBuffer} {p size : ℕ} (hp : p < r.maxSize)
    (hsize : size ≤ r.maxSize) (hmax : r.maxSize < 2 ^ 64) :
    iovCells (r.span p size) = around r.maxSize p size := by
  have hupper : sizeSub r.maxSize p = r.maxSize - p := sizeSub_eq (by omega) hmax
  unfold span
  simp only [hupper]
  split_ifs with h
  · rw [around_of_le (by omega)]
    simp [iovCells, Iovec.cells]
  · rw [around_of_wrap (by omega) hsize (by omega), sizeSub_eq (by omega) (by omega)]
    simp [iovCells, Iovec.cells]

namespace Regions
variable {r : RingBuffer} {start n : ℕ} (h : r.Regions start)
include h

theorem rp_lt : r.rp < r.maxSize := h.rp_eq ▸ Nat.mod_lt _ h.max_pos

theorem wp_lt : r.wp < r.maxSize := h.wp_eq ▸ Nat.mod_lt _ h.max_pos

theorem cells_reading : iovCells r.reading = r.unreadCells := by
  unfold reading
  split_ifs with hz
  · simp [unreadCells, hz, iovCells]
  · exact iovCells_span h.rp_lt (h.rda_le.trans h.use_le) h.max_lt

theorem cells_writing :
    iovCells r.writing = around r.maxSize r.wp (r.maxSize - r.useSize) := by
  unfold writing
  split_ifs with hz
  · simp [hz, iovCells]
  · rw [sizeSub_eq h.use_le h.max_lt]
    exact iovCells_span h.wp_lt (Nat.sub_le _ _) h.max_lt

/-- The whole ring, region by region. -/
theorem around_regions : around r.maxSize start r.maxSize =
    r.lentCells start ++ r.unreadCells ++ iovCells r.writing := by
  have hrda := h.rda_le
  have huse := h.use_le
  rw [h.cells_writing, lentCells, unreadCells, h.rp_eq, h.wp_eq, around_mod, around_mod,
    ← around_add, ← Nat.add_sub_cancel' huse, around_add]
  simp only [Nat.add_sub_cancel' huse, Nat.sub_add_cancel hrda]

/-- No free cell is lent or unread. -/
theorem free_disjoint : (r.lentCells start ++ r.unreadCells).Disjoint (iovCells r.writing) :=
  List.disjoint_of_nodup_append (h.around_regions ▸ nodup_around (Nat.le_refl _))

theorem nodup_writing : (iovCells r.writing).Nodup := by
  rw [h.cells_writing]
  exact nodup_around (Nat.sub_le _ _)

theorem length_writing : (iovCells r.writing).length = r.maxSize - r.useSize := by
  rw [h.cells_writing, length_around]

/-! ### What the operations do to the regions -/

/-- `readv` into the free cells and `write_finish`: the bytes are unread behind the others. -/
theorem writeFinish {bs : List Byte} (hbs : bs.length ≤ r.maxSize - r.useSize) :
    let r' := { r with data := r.data.scatter (iovCells r.writing) bs }.writeFinish
      bs.length
    r'.Regions start ∧ r'.lentCells start = r.lentCells start ∧
      r'.unread = r.unread ++ bs ∧
      (r.lentCells start).map r'.data = (r.lentCells start).map r.data := by
  have hrda := h.rda_le
  have huse := h.use_le
  have hlent : r.useSize + bs.length - (r.rdaSize + bs.length)
      = r.useSize - r.rdaSize := by omega
  obtain ⟨hdl, hdu⟩ := List.disjoint_append_left.mp h.free_disjoint
  refine ⟨⟨h.max_pos, h.max_lt, ?_, ?_, ?_, ?_⟩, ?_, ?_, Mem.map_scatter_of_disjoint bs hdl⟩
  · exact Nat.add_le_add_right hrda _
  · show r.useSize + bs.length ≤ r.maxSize
    omega
  · show r.rp = (start + (r.useSize + bs.length - (r.rdaSize + bs.length))) % r.maxSize
    rw [hlent, ← h.rp_eq]
  · show (r.wp + bs.length) % r.maxSize = (start + (r.useSize + bs.length)) % r.maxSize
    rw [h.wp_eq, Nat.mod_add_mod, Nat.add_assoc]
  · show around _ start (r.useSize + bs.length - (r.rdaSize + bs.length)) = _
    rw [hlent]
    rfl
  · -- the unread cells grow by the first free ones
    have hnew : around r.maxSize (r.rp + r.rdaSize) bs.length
        = (iovCells r.writing).take bs.length := by
      rw [h.cells_writing, take_around hbs, h.wp_eq, h.rp_eq, ← around_mod, Nat.mod_add_mod]
      congr 1
      rw [Nat.add_assoc, Nat.sub_add_cancel hrda]
    show (around r.maxSize r.rp (r.rdaSize + bs.length)).map
      (r.data.scatter (iovCells r.writing) bs) = r.unread ++ bs
    rw [around_add, List.map_append, hnew,
      Mem.map_scatter h.nodup_writing (h.length_writing ▸ hbs)]
    exact congrArg (· ++ bs) (Mem.map_scatter_of_disjoint bs hdu)

/-- `read_finish`: the bytes read are lent behind the others. -/
theorem readFinish (hn : n ≤ r.rdaSize) :
    (r.readFinish n).Regions start ∧
      (r.readFinish n).lentCells start = r.lentCells start ++ r.unreadCells.take n ∧
      (r.readFinish n).unreadCells = r.unreadCells.drop n := by
  have hrda := h.rda_le
  have huse := h.use_le
  have hmax := h.max_lt
  have hsub : sizeSub r.rdaSize n = r.rdaSize - n := sizeSub_eq hn (by omega)
  have hlent : r.useSize - (r.rdaSize - n) = (r.useSize - r.rdaSize) + n := by omega
  refine ⟨⟨h.max_pos, h.max_lt, ?_, h.use_le, ?_, h.wp_eq⟩, ?_, ?_⟩
  · show sizeSub r.rdaSize n ≤ r.useSize
    omega
  · show (r.rp + n) % r.maxSize
      = (start + (r.useSize - sizeSub r.rdaSize n)) % r.maxSize
    rw [hsub, hlent, h.rp_eq, Nat.mod_add_mod, Nat.add_assoc]
  · show around _ start (r.useSize - sizeSub r.rdaSize n) = _
    rw [hsub, hlent, around_add, unreadCells, take_around hn, h.rp_eq, around_mod]
    rfl
  · show around r.maxSize ((r.rp + n) % r.maxSize) (sizeSub r.rdaSize n) = _
    rw [hsub, around_mod, unreadCells, drop_around hn]

/-- `read_release`: the oldest lent cells become free, also when the pointers are reset. -/
theorem readRelease (hn : n ≤ r.useSize - r.rdaSize) :
    ∃ start', (r.readRelease n).Regions start' ∧
      (r.readRelease n).lentCells start' = (r.lentCells start).drop n ∧
      (r.readRelease n).unreadCells = r.unreadCells := by
  have hrda := h.rda_le
  have huse := h.use_le
  have hmax := h.max_lt
  have hsub : sizeSub r.useSize n = r.useSize - n := sizeSub_eq (by omega) (by omega)
  unfold RingBuffer.readRelease
  simp only [hsub]
  split_ifs with hz
  · -- nothing is lent or unread any more
    have hrz : r.rdaSize = 0 := by omega
    refine ⟨0, ⟨h.max_pos, h.max_lt, ?_, ?_, ?_, ?_⟩, ?_, ?_⟩
    · show r.rdaSize ≤ r.useSize - n
      omega
    · show r.useSize - n ≤ r.maxSize
      omega
    · show 0 = (0 + (r.useSize - n - r.rdaSize)) % r.maxSize
      rw [hz, hrz, Nat.zero_mod]
    · show 0 = (0 + (r.useSize - n)) % r.maxSize
      rw [hz, Nat.zero_mod]
    · show around _ 0 (r.useSize - n - r.rdaSize) = _
      rw [hz, lentCells, drop_around hn, show r.useSize - r.rdaSize - n = 0 by omega]
      simp
    · simp [unreadCells, hrz]
  · refine ⟨start + n, ⟨h.max_pos, h.max_lt, ?_, ?_, ?_, ?_⟩, ?_, rfl⟩
    · show r.rdaSize ≤ r.useSize - n
      omega
    · show r.useSize - n ≤ r.maxSize
      omega
    · show r.rp = (start + n + (r.useSize - n - r.rdaSize)) % r.maxSize
      rw [h.rp_eq]
      congr 1
      omega
    · show r.wp = (start + n + (r.useSize - n)) % r.maxSize
      rw [h.wp_eq]
      congr 1
      omega
    · show around _ (start + n) (r.useSize - n - r.rdaSize) = _
      rw [lentCells, drop_around hn]
      congr 1
      omega

end Regions

end RingBuffer

end HevTunnel
