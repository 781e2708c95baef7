import HevTunnel.RingBuffer
import HevTunnel.Transition

/-! # From the SOCKS server to the client: `tcp_splice_b`

A TCP session reads from its SOCKS socket into a ring buffer and passes the ring's cells to lwIP by
reference.  lwIP keeps the references until the client acknowledges the bytes, which it reports
through `tcp_sent_handler`.

`tcp_splice_b` gives way only where it waits for the mutex, so a call has two sections: `readSection`
up to there, and `writeSection` behind it.  The callbacks of lwIP come before, between and after
them.  Of lwIP we assume:

* `tcp_write` takes a 16-bit length and accepts exactly what fits into the send buffer, which is
  `TCP_SND_BUF` minus the bytes in flight;
* `tcp_sent_handler` is called with at most the number of bytes in flight.

`downstream_sound` is the result: along every run no write is refused, the bytes come through in order, no
byte in flight is overwritten, and the stream is shut down once, at its end. -/

namespace HevTunnel

/-- `TCP_SND_BUF`. -/
def tcpSndBuf : ℕ := 8 * 8191

/-- A call of `tcp_write`: the length passed, the free send buffer, and the outcome. -/
structure WriteCall where
  len : ℕ
  sndBuf : ℕ
  accepted : Bool

/-- The length fits into 16 bits and into the send buffer, and the write is accepted. -/
def WriteCall.Fits (c : WriteCall) : Prop :=
  c.len < 2 ^ 16 ∧ c.len ≤ c.sndBuf ∧ c.accepted = true

/-- lwIP's side of a connection. -/
structure TcpPcb where
  /-- The cells referred to and not acknowledged, with the bytes they held when passed. -/
  flight : List (ℕ × Byte)
  written : List Byte
  calls : List WriteCall

namespace TcpPcb

def sndBuf (pcb : TcpPcb) : ℕ := tcpSndBuf - pcb.flight.length

/-- `tcp_write` of an area of the memory, with whether it is accepted. -/
def tcpWrite (pcb : TcpPcb) (data : Mem) (v : Iovec) : Bool × TcpPcb :=
  -- the parameter of `tcp_write` is a `u16_t`
  let len := v.len % 2 ^ 16
  let cells := List.range' v.base len
  if len ≤ pcb.sndBuf then
    (true, {
      flight := pcb.flight ++ cells.map (fun c => (c, data c))
      written := pcb.written ++ cells.map data
      calls := pcb.calls ++ [⟨v.len, pcb.sndBuf, true⟩] })
  else (false, { pcb with calls := pcb.calls ++ [⟨v.len, pcb.sndBuf, false⟩] })

/-- The loop of `tcp_splice_b` over the scatter list: whether a write was refused, and the sum of
the lengths. -/
def writeAll (data : Mem) : TcpPcb → List Iovec → Bool × ℕ × TcpPcb
  | pcb, [] => (false, 0, pcb)
  | pcb, v :: iov =>
      let (ok, pcb) := pcb.tcpWrite data v
      let (err, s, pcb) := writeAll data pcb iov
      (!ok || err, v.len + s, pcb)

/-- The send buffer is smaller than 64 KiB. -/
theorem lt_of_le_sndBuf {pcb : TcpPcb} {len : ℕ} (h : len ≤ pcb.sndBuf) : len < 2 ^ 16 := by
  have : pcb.sndBuf ≤ tcpSndBuf := Nat.sub_le _ _
  unfold tcpSndBuf at this
  omega

theorem tcpWrite_of_le {pcb : TcpPcb} {v : Iovec} (data : Mem) (h : v.len ≤ pcb.sndBuf) :
    pcb.tcpWrite data v = (true, {
      flight := pcb.flight ++ v.cells.map (fun c => (c, data c))
      written := pcb.written ++ v.cells.map data
      calls := pcb.calls ++ [⟨v.len, pcb.sndBuf, true⟩] }) := by
  simp only [tcpWrite, Nat.mod_eq_of_lt (lt_of_le_sndBuf h), if_pos h]
  rfl

theorem length_iovCells_cons (v : Iovec) (iov : List Iovec) :
    (iovCells (v :: iov)).length = v.len + (iovCells iov).length := by
  simp [iovCells, Iovec.cells]

/-- A scatter list that fits into the send buffer is written entirely. -/
theorem writeAll_of_le (data : Mem) (iov : List Iovec) (pcb : TcpPcb)
    (hle : (iovCells iov).length ≤ pcb.sndBuf) (hcalls : ∀ c ∈ pcb.calls, c.Fits) :
    ∃ pcb', pcb.writeAll data iov = (false, (iovCells iov).length, pcb') ∧
      pcb'.flight = pcb.flight ++ (iovCells iov).map (fun c => (c, data c)) ∧
      pcb'.written = pcb.written ++ (iovCells iov).map data ∧ ∀ c ∈ pcb'.calls, c.Fits := by
  induction iov generalizing pcb with
  | nil => exact ⟨pcb, rfl, by simp [iovCells], by simp [iovCells], hcalls⟩
  | cons v iov ih =>
      rw [length_iovCells_cons] at hle
      have hv : v.len ≤ pcb.sndBuf := by omega
      have hwrite := tcpWrite_of_le data hv
      have hrest : (iovCells iov).length ≤ (pcb.tcpWrite data v).2.sndBuf := by
        have hlen : v.cells.length = v.len := List.length_range'
        rw [hwrite]
        simp only [sndBuf, List.length_append, List.length_map, hlen] at hle ⊢
        omega
      have hfits : ∀ c ∈ (pcb.tcpWrite data v).2.calls, c.Fits := by
        rw [hwrite]
        intro c hc
        rw [List.mem_append, List.mem_singleton] at hc
        obtain hc | rfl := hc
        · exact hcalls c hc
        · exact ⟨lt_of_le_sndBuf hv, hv, rfl⟩
      obtain ⟨pcb', hall, hflight, hwritten, hcalls'⟩ := ih _ hrest hfits
      rw [hwrite] at hall hflight hwritten
      refine ⟨pcb', ?_, ?_, ?_, hcalls'⟩
      · simp [writeAll, hwrite, hall, length_iovCells_cons]
      · simp [hflight, iovCells]
      · simp [hwritten, iovCells]

end TcpPcb

/-- What `readv` returns. -/
inductive Readv where
  | data (bytes : List Byte)
  | again
  | eof
  | error

/-- A session with its ring buffer, and both ends of its downstream. -/
structure TcpDown where
  buffer : RingBuffer
  /-- Whether `self->pcb` is set. -/
  hasPcb : Bool
  /-- `res_b` of the splice loop. -/
  resB : Int
  /-- `res` of `tcp_splice_b` while it waits for the mutex. -/
  waiting : Option Int
  pcb : TcpPcb
  /-- The bytes read from the SOCKS socket, and whether its end or an error was read. -/
  received : List Byte
  ended : Bool
  /-- For each call of `tcp_shutdown`, `ended` and the number of unread bytes. -/
  shutdowns : List (Bool × ℕ)

namespace TcpDown

/-- The start of the splice loop. -/
def init (size : ℕ) (data : Mem) : TcpDown where
  buffer := .alloca size data
  hasPcb := true
  resB := 1
  waiting := none
  pcb := ⟨[], [], []⟩
  received := []
  ended := false
  shutdowns := []

/-- `tcp_splice_b` up to the mutex.  The splice loop calls it as long as its result is not
negative. -/
def readSection (s : TcpDown) (r : Readv) : Option TcpDown :=
  if s.resB < 0 ∨ s.waiting ≠ none then none
  else
    let iov := s.buffer.writing
    if iov = [] then some { s with waiting := some 0 }
    else
      match r with
      | .data bytes =>
          if bytes = [] ∨ (iovCells iov).length < bytes.length then none
          else
            let data := s.buffer.data.scatter (iovCells iov) bytes
            some { s with
              buffer := { s.buffer with data := data }.writeFinish bytes.length
              waiting := some 1
              received := s.received ++ bytes }
      | .again => some { s with waiting := some 0 }
      | .eof | .error => some { s with waiting := some (-1), ended := true }

/-- `tcp_splice_b` from the mutex on; the flag is whether `tcp_output` fails. -/
def writeSection (s : TcpDown) (outputErr : Bool) : Option TcpDown :=
  match s.waiting with
  | none => none
  | some res =>
      let s := { s with waiting := none }
      if s.hasPcb then
        let iov := s.buffer.reading
        if iov ≠ [] then
          let (err, n, pcb) := TcpPcb.writeAll s.buffer.data s.pcb iov
          some { s with
            buffer := s.buffer.readFinish n
            pcb := pcb
            resB := if err || outputErr then -1 else 1 }
        else if res < 0 then
          some { s with shutdowns := s.shutdowns ++ [(s.ended, s.buffer.rdaSize)], resB := res }
        else some { s with resB := res }
      else some { s with resB := -1 }

/-- `tcp_sent_handler`. -/
def sent (s : TcpDown) (len : ℕ) : Option TcpDown :=
  if s.hasPcb ∧ len ≤ s.pcb.flight.length then
    some { s with
      buffer := s.buffer.readRelease len
      pcb := { s.pcb with flight := s.pcb.flight.drop len } }
  else none

/-- `tcp_err_handler`; lwIP has freed the connection. -/
def err (s : TcpDown) : Option TcpDown :=
  if s.hasPcb then some { s with hasPcb := false } else none

inductive Step where
  | read (r : Readv)
  | write (outputErr : Bool)
  | sent (len : ℕ)
  | err

/-- One step, `none` if it cannot be taken. -/
def step (s : TcpDown) : Step → Option TcpDown
  | .read r => s.readSection r
  | .write outputErr => s.writeSection outputErr
  | .sent len => s.sent len
  | .err => s.err

def run (s : TcpDown) (xs : List Step) : Option TcpDown := runSteps step s xs

/-! ### The invariant -/

/-- The ring lends exactly the bytes in flight, and the rest of the stream is unread. -/
structure Inv (s : TcpDown) (start : ℕ) : Prop where
  regions : s.buffer.Regions start
  max_le : s.buffer.maxSize ≤ tcpSndBuf
  flight_eq : s.pcb.flight = (s.buffer.lentCells start).map (fun c => (c, s.buffer.data c))
  stream_eq : s.pcb.written ++ s.buffer.unread = s.received
  fits : ∀ c ∈ s.pcb.calls, c.Fits
  waiting_res : ∀ res, s.waiting = some res → 0 ≤ s.resB ∧ (res < 0 → s.ended = true)
  shutdowns_eq : s.shutdowns = [] ∨ s.shutdowns = [(true, 0)] ∧ s.resB < 0

theorem init_inv {size : ℕ} (data : Mem) (h₀ : 0 < size) (h : size ≤ tcpSndBuf) :
    (init size data).Inv 0 where
  regions := RingBuffer.alloca_regions data h₀ (by unfold tcpSndBuf at h; omega)
  max_le := h
  flight_eq := rfl
  stream_eq := rfl
  fits := by simp [init]
  waiting_res := by simp [init]
  shutdowns_eq := .inl rfl

namespace Inv
variable {s s' : TcpDown} {start : ℕ} (h : s.Inv start)
include h

theorem length_flight : s.pcb.flight.length = s.buffer.useSize - s.buffer.rdaSize := by
  rw [h.flight_eq, List.length_map, RingBuffer.lentCells, length_around]

/-- What is unread fits into the send buffer. -/
theorem reading_le : (iovCells s.buffer.reading).length ≤ s.pcb.sndBuf := by
  have hrda := h.regions.rda_le
  have huse := h.regions.use_le
  have hmax := h.max_le
  rw [h.regions.cells_reading, RingBuffer.unreadCells, length_around, TcpPcb.sndBuf,
    h.length_flight]
  omega

theorem readSection {r : Readv} (hs : s.readSection r = some s') : s'.Inv start := by
  simp only [TcpDown.readSection] at hs
  split_ifs at hs with hcall hfull
  all_goals rw [not_or, not_lt] at hcall
  · cases hs
    exact { h with waiting_res := by simpa using hcall.1 }
  · cases r with
    | data bytes =>
        simp only at hs
        split_ifs at hs with hbytes
        rw [not_or, not_lt, h.regions.length_writing] at hbytes
        obtain ⟨hregions, hlent, hunread, hdata⟩ := h.regions.writeFinish hbytes.2
        cases hs
        refine ⟨hregions, h.max_le, ?_, ?_, h.fits, ?_, h.shutdowns_eq⟩
        · rw [h.flight_eq, hlent]
          rw [List.map_inj_left] at hdata
          exact List.map_congr_left (fun c hc => by rw [hdata c hc])
        · rw [hunread, ← List.append_assoc, h.stream_eq]
        · simpa using hcall.1
    | again =>
        cases hs
        exact { h with waiting_res := by simpa using hcall.1 }
    | eof =>
        cases hs
        exact { h with waiting_res := by simpa using hcall.1 }
    | error =>
        cases hs
        exact { h with waiting_res := by simpa using hcall.1 }

/-- The writes of one call lend all of the unread bytes. -/
theorem writeAll_reading : ∃ pcb,
    TcpPcb.writeAll s.buffer.data s.pcb s.buffer.reading = (false, s.buffer.rdaSize, pcb) ∧
    pcb.flight = s.pcb.flight ++ s.buffer.unreadCells.map (fun c => (c, s.buffer.data c)) ∧
    pcb.written = s.pcb.written ++ s.buffer.unread ∧ ∀ c ∈ pcb.calls, c.Fits := by
  obtain ⟨pcb, hall, hflight, hwritten, hfits⟩ :=
    TcpPcb.writeAll_of_le s.buffer.data _ _ h.reading_le h.fits
  rw [h.regions.cells_reading] at hall hflight hwritten
  refine ⟨pcb, ?_, hflight, hwritten, hfits⟩
  rw [hall, RingBuffer.unreadCells, length_around]

theorem writeSection {outputErr : Bool} (hs : s.writeSection outputErr = some s') :
    s'.Inv start := by
  cases hw : s.waiting with
  | none => simp [TcpDown.writeSection, hw] at hs
  | some res =>
      obtain ⟨hresB, hended⟩ := h.waiting_res res hw
      -- a call is under way, so there has been no shutdown
      have hno : s.shutdowns = [] := by
        obtain hnil | ⟨-, hneg⟩ := h.shutdowns_eq
        · exact hnil
        · omega
      simp only [TcpDown.writeSection, hw] at hs
      by_cases hpcb : s.hasPcb = true
      · rw [if_pos hpcb] at hs
        by_cases hiov : s.buffer.reading = []
        · rw [if_neg (not_not.mpr hiov)] at hs
          split_ifs at hs with hres
          · have hrda := RingBuffer.rdaSize_of_reading hiov
            cases hs
            refine { h with waiting_res := by simp, shutdowns_eq := .inr ⟨?_, hres⟩ }
            simp [hno, hended hres, hrda]
          · cases hs
            exact { h with waiting_res := by simp, shutdowns_eq := .inl hno }
        · obtain ⟨pcb, hall, hflight, hwritten, hfits⟩ := h.writeAll_reading
          obtain ⟨hregions, hlent, hunread⟩ := h.regions.readFinish (Nat.le_refl _)
          have hlen : s.buffer.unreadCells.length ≤ s.buffer.rdaSize := by simp [RingBuffer.unreadCells]
          rw [List.take_of_length_le hlen] at hlent
          rw [List.drop_of_length_le hlen] at hunread
          rw [if_pos hiov, hall] at hs
          cases hs
          refine ⟨hregions, h.max_le, ?_, ?_, hfits, by simp, .inl hno⟩
          · rw [hflight, h.flight_eq, hlent, List.map_append]
            rfl
          · have hnil : (s.buffer.readFinish s.buffer.rdaSize).unread = [] := by
              rw [RingBuffer.unread, hunread, List.map_nil]
            rw [hwritten, h.stream_eq]
            exact (congrArg (s.received ++ ·) hnil).trans (List.append_nil _)
      · rw [if_neg hpcb] at hs
        cases hs
        exact { h with waiting_res := by simp, shutdowns_eq := .inl hno }

theorem sent {len : ℕ} (hs : s.sent len = some s') : ∃ start', s'.Inv start' := by
  unfold TcpDown.sent at hs
  split_ifs at hs with hlen
  have hle : len ≤ s.buffer.useSize - s.buffer.rdaSize := h.length_flight ▸ hlen.2
  obtain ⟨start', hregions, hlent, hunread⟩ := h.regions.readRelease hle
  cases hs
  refine ⟨start', hregions, ?_, ?_, ?_, h.fits, h.waiting_res, h.shutdowns_eq⟩
  · rw [RingBuffer.maxSize_readRelease]
    exact h.max_le
  · rw [h.flight_eq, hlent, RingBuffer.data_readRelease, List.map_drop]
  · rw [RingBuffer.unread, hunread, RingBuffer.data_readRelease]
    exact h.stream_eq

theorem step {x : Step} (hs : s.step x = some s') : ∃ start', s'.Inv start' := by
  cases x with
  | read r => exact ⟨start, h.readSection hs⟩
  | write outputErr => exact ⟨start, h.writeSection hs⟩
  | sent len => exact h.sent hs
  | err =>
      simp only [TcpDown.step, TcpDown.err] at hs
      split_ifs at hs
      cases hs
      exact ⟨start, { h with }⟩

end Inv

/-! ### The result -/

/-- The downstream of a session in a state it reaches. -/
structure Sound (s : TcpDown) : Prop where
  /-- No write is refused. -/
  fits : ∀ c ∈ s.pcb.calls, c.Fits
  /-- The bytes written, followed by the unread ones, are the bytes read. -/
  stream : s.pcb.written ++ s.buffer.unread = s.received
  /-- The ring keeps what is not acknowledged. -/
  lent : s.buffer.rdaSize ≤ s.buffer.useSize ∧
    s.buffer.useSize - s.buffer.rdaSize = s.pcb.flight.length
  /-- A cell in flight holds the byte that was passed, and the next `readv` leaves it alone. -/
  intact : ∀ c ∈ s.pcb.flight, s.buffer.data c.1 = c.2 ∧ c.1 ∉ iovCells s.buffer.writing
  /-- `tcp_shutdown` is called once at most, at the end of the stream with nothing unread. -/
  shutdown : s.shutdowns.length ≤ 1 ∧ ∀ x ∈ s.shutdowns, x = (true, 0)

theorem Inv.sound {s : TcpDown} {start : ℕ} (h : s.Inv start) : s.Sound where
  fits := h.fits
  stream := h.stream_eq
  lent := ⟨h.regions.rda_le, h.length_flight.symm⟩
  intact := by
    intro c hc
    rw [h.flight_eq, List.mem_map] at hc
    obtain ⟨cell, hcell, rfl⟩ := hc
    exact ⟨rfl, (List.disjoint_append_left.mp h.regions.free_disjoint).1 hcell⟩
  shutdown := by
    obtain hnil | ⟨hone, -⟩ := h.shutdowns_eq
    · simp [hnil]
    · simp [hone]

/-- Along every run of a session whose buffer is no larger than lwIP's send buffer. -/
theorem downstream_sound (size : ℕ) (data : Mem) (h₀ : 0 < size) (h : size ≤ tcpSndBuf) (xs : List Step)
    (s : TcpDown) (hs : (init size data).run xs = some s) : s.Sound := by
  obtain ⟨start, hinv⟩ := runSteps_invariant (fun s => ∃ start, s.Inv start)
    (fun ⟨_, hinv⟩ hstep => hinv.step hstep) ⟨0, init_inv data h₀ h⟩ hs
  exact hinv.sound

/-- A ring of four cells that wraps around while its first cell is still in flight. -/
def wrapAround : List Step :=
  [.read (.data [1, 2, 3]), .write false, .sent 2, .read (.data [4, 5]), .sent 1, .write false,
    .read .eof, .write false]

theorem wrapAround_sound : ∃ s, (init 4 (fun _ => 0)).run wrapAround = some s ∧
    s.pcb.written = [1, 2, 3, 4, 5] ∧ s.shutdowns = [(true, 0)] ∧ s.Sound := by
  have hrun : ((init 4 (fun _ => 0)).run wrapAround).map (fun s => (s.pcb.written, s.shutdowns))
      = some ([1, 2, 3, 4, 5], [(true, 0)]) := by decide +kernel
  rw [Option.map_eq_some_iff] at hrun
  obtain ⟨s, hs, hout⟩ := hrun
  rw [Prod.mk.injEq] at hout
  exact ⟨s, hs, hout.1, hout.2, downstream_sound 4 _ (by decide) (by decide) wrapAround s hs⟩

end TcpDown

end HevTunnel
