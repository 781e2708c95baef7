import HevTunnel.RingBuffer

/-! # The circular buffer

`hev-circular-buffer.c` keeps the bytes that one direction of `hev_task_io_splice` has read and not
yet written.  It is the ring buffer without a lent part: `ring` is the ring buffer with the same
cells, and its regions give what the scatter lists name (`iovCells_reading`, `iovCells_writing`) and
what the two `finish` functions do to the bytes (`Valid.fill`, `Valid.readFinish`).

Sums of `size_t` wrap around in the model; they do not in a buffer of less than `2 ^ 63` bytes, which
is as large as an object can be. -/

namespace HevTunnel

/-- Addition of `size_t`. -/
def sizeAdd (a b : ℕ) : ℕ := (a + b) % 2 ^ 64

theorem sizeAdd_eq {a b : ℕ} (h : a + b < 2 ^ 64) : sizeAdd a b = a + b := Nat.mod_eq_of_lt h

/-- `HevCircularBuffer`; `data` is the memory its data lies in. -/
structure CircularBuffer where
  rp : ℕ
  useSize : ℕ
  maxSize : ℕ
  data : Mem

namespace CircularBuffer

/-- `hev_circular_buffer_new`, when there is memory. -/
def new (maxSize : ℕ) (data : Mem) : CircularBuffer := ⟨0, 0, maxSize, data⟩

/-- The scatter list of `size` bytes from offset `p` on. -/
def span (self : CircularBuffer) (p size : ℕ) : List Iovec :=
  let upper := sizeSub self.maxSize p
  if size ≤ upper then [⟨p, size⟩]
  else [⟨p, upper⟩, ⟨0, sizeSub size upper⟩]

/-- `hev_circular_buffer_reading`. -/
def reading (self : CircularBuffer) : List Iovec :=
  if self.useSize = 0 then [] else self.span self.rp self.useSize

/-- `hev_circular_buffer_read_finish`. -/
def readFinish (self : CircularBuffer) (size : ℕ) : CircularBuffer :=
  { self with
    rp := sizeAdd self.rp size % self.maxSize
    useSize := sizeSub self.useSize size }

/-- `wp` of `hev_circular_buffer_writing`. -/
def wp (self : CircularBuffer) : ℕ := sizeAdd self.rp self.useSize % self.maxSize

/-- `hev_circular_buffer_writing`. -/
def writing (self : CircularBuffer) : List Iovec :=
  if self.useSize = self.maxSize then []
  else self.span self.wp (sizeSub self.maxSize self.useSize)

/-- `hev_circular_buffer_write_finish`. -/
def writeFinish (self : CircularBuffer) (size : ℕ) : CircularBuffer :=
  { self with useSize := sizeAdd self.useSize size }

/-- The bytes in the buffer, the oldest first. -/
def held (self : CircularBuffer) : List Byte :=
  (around self.maxSize self.rp self.useSize).map self.data

/-- `readv` into the free cells and `write_finish`. -/
def fill (self : CircularBuffer) (bs : List Byte) : CircularBuffer :=
  { self with data := self.data.scatter (iovCells self.writing) bs }.writeFinish bs.length

theorem span_ne_nil (self : CircularBuffer) (p size : ℕ) : self.span p size ≠ [] := by
  simp only [span]
  split_ifs <;> simp

theorem reading_eq_nil {self : CircularBuffer} : self.reading = [] ↔ self.useSize = 0 := by
  unfold reading
  split_ifs with h
  · exact iff_of_true rfl h
  · exact iff_of_false (span_ne_nil _ _ _) h

theorem writing_eq_nil {self : CircularBuffer} :
    self.writing = [] ↔ self.useSize = self.maxSize := by
  unfold writing
  split_ifs with h
  · exact iff_of_true rfl h
  · exact iff_of_false (span_ne_nil _ _ _) h

@[simp]
theorem length_held (self : CircularBuffer) : self.held.length = self.useSize := by
  simp [held]

/-- The ring buffer with the same cells, none of them lent. -/
def ring (self : CircularBuffer) : RingBuffer :=
  ⟨self.rp, self.wp, self.useSize, self.useSize, self.maxSize, self.data⟩

structure Valid (c : CircularBuffer) : Prop where
  max_pos : 0 < c.maxSize
  max_lt : c.maxSize < 2 ^ 63
  use_le : c.useSize ≤ c.maxSize
  rp_lt : c.rp < c.maxSize

theorem new_valid {size : ℕ} (data : Mem) (h₀ : 0 < size) (h : size < 2 ^ 63) :
    (new size data).Valid :=
  ⟨h₀, h, Nat.zero_le _, h₀⟩

namespace Valid
variable {c : CircularBuffer} (h : c.Valid)
include h

theorem regions : c.ring.Regions c.rp := by
  have hmax := h.max_lt
  have huse := h.use_le
  have hrp := h.rp_lt
  refine ⟨h.max_pos, ?_, Nat.le_refl _, huse, ?_, ?_⟩
  · show c.maxSize < 2 ^ 64
    omega
  · show c.rp = (c.rp + (c.useSize - c.useSize)) % c.maxSize
    rw [Nat.sub_self, Nat.add_zero, Nat.mod_eq_of_lt hrp]
  · show sizeAdd c.rp c.useSize % c.maxSize = _
    rw [sizeAdd_eq (by omega)]
    rfl

theorem iovCells_reading : iovCells c.reading = around c.maxSize c.rp c.useSize :=
  h.regions.cells_reading

theorem iovCells_writing :
    iovCells c.writing = around c.maxSize c.wp (c.maxSize - c.useSize) :=
  h.regions.cells_writing

theorem length_writing : (iovCells c.writing).length = c.maxSize - c.useSize :=
  h.regions.length_writing

/-- The scatter lists stay inside the buffer. -/
theorem in_bounds : ∀ i ∈ iovCells c.reading ++ iovCells c.writing, i < c.maxSize := by
  intro i hi
  rw [h.iovCells_reading, h.iovCells_writing, List.mem_append] at hi
  obtain hi | hi := hi
  all_goals
    obtain ⟨j, -, rfl⟩ := List.mem_map.mp hi
    exact Nat.mod_lt _ h.max_pos

/-- The bytes read are held behind the others. -/
theorem fill {bs : List Byte} (hbs : bs.length ≤ c.maxSize - c.useSize) :
    (c.fill bs).Valid ∧ (c.fill bs).held = c.held ++ bs := by
  have hmax := h.max_lt
  have huse := h.use_le
  have hadd : sizeAdd c.useSize bs.length = c.useSize + bs.length := sizeAdd_eq (by omega)
  obtain ⟨-, -, hunread, -⟩ := h.regions.writeFinish hbs
  refine ⟨⟨h.max_pos, hmax, ?_, h.rp_lt⟩, ?_⟩
  · show sizeAdd c.useSize bs.length ≤ c.maxSize
    omega
  · unfold held
    rw [show (c.fill bs).useSize = c.useSize + bs.length from hadd]
    exact hunread

/-- The bytes written leave the buffer. -/
theorem readFinish {n : ℕ} (hn : n ≤ c.useSize) :
    (c.readFinish n).Valid ∧ (c.readFinish n).held = c.held.drop n := by
  have hmax := h.max_lt
  have huse := h.use_le
  have hrp := h.rp_lt
  have hadd : sizeAdd c.rp n = c.rp + n := sizeAdd_eq (by omega)
  have hsub : sizeSub c.useSize n = c.useSize - n := sizeSub_eq hn (by omega)
  refine ⟨⟨h.max_pos, hmax, ?_, Nat.mod_lt _ h.max_pos⟩, ?_⟩
  · show sizeSub c.useSize n ≤ c.maxSize
    omega
  · show (around c.maxSize (sizeAdd c.rp n % c.maxSize) (sizeSub c.useSize n)).map c.data = _
    rw [hadd, hsub, around_mod, held, ← List.map_drop, drop_around hn]

end Valid

end CircularBuffer

end HevTunnel
