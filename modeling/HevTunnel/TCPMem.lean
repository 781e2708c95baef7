import HevTunnel.TCPDown

/-! # Downstream data when lwIP runs out of memory

lwIP's segments and buffers are shared by all connections, so that `tcp_write` can fail with
`ERR_MEM` although the data fits into the send buffer.  `tcp_splice_b` goes on with the second part
of the ring when the first one was refused, and takes both for read.

`TcpDown.stepMem` are the steps of a session with any outcome of each write.
`everyState_noGap_iff`: the bytes accepted are a prefix of the stream and the ring lends exactly
those that are in flight, all along a run, exactly if no write of the run is refused. -/

namespace HevTunnel

namespace TcpPcb

/-- `tcp_write` of an area of the memory, with its outcome. -/
def tcpWriteMem (pcb : TcpPcb) (data : Mem) (v : Iovec) (ok : Bool) : TcpPcb :=
  let cells := List.range' v.base (v.len % 2 ^ 16)
  if ok then {
    flight := pcb.flight ++ cells.map (fun c => (c, data c))
    written := pcb.written ++ cells.map data
    calls := pcb.calls ++ [⟨v.len, pcb.sndBuf, true⟩] }
  else { pcb with calls := pcb.calls ++ [⟨v.len, pcb.sndBuf, false⟩] }

/-- The loop of `tcp_splice_b` from the entry `i` of the scatter list on: whether a write was
refused, and the sum of the lengths.  `oks` are the outcomes. -/
def writeAllMem (data : Mem) (oks : ℕ → Bool) : ℕ → TcpPcb → List Iovec → Bool × ℕ × TcpPcb
  | _, pcb, [] => (false, 0, pcb)
  | i, pcb, v :: iov =>
      let (err, s, pcb) := writeAllMem data oks (i + 1) (pcb.tcpWriteMem data v (oks i)) iov
      (!oks i || err, v.len + s, pcb)

section writes
variable {data : Mem} {oks : ℕ → Bool}

/-- A write that is accepted and fits is the write of a stack with enough memory. -/
theorem tcpWriteMem_eq (data : Mem) {pcb : TcpPcb} {v : Iovec} (hle : v.len ≤ pcb.sndBuf) :
    (true, pcb.tcpWriteMem data v true) = pcb.tcpWrite data v := by
  rw [tcpWrite_of_le data hle, tcpWriteMem, Nat.mod_eq_of_lt (lt_of_le_sndBuf hle)]
  rfl

theorem length_flight_tcpWriteMem (pcb : TcpPcb) (v : Iovec) (ok : Bool) :
    (pcb.tcpWriteMem data v ok).flight.length =
      pcb.flight.length + if ok then v.len % 2 ^ 16 else 0 := by
  cases ok with
  | false => rfl
  | true => simp [tcpWriteMem]

theorem writeAllMem_eq {iov : List Iovec} {pcb : TcpPcb} {i : ℕ}
    (hle : (iovCells iov).length ≤ pcb.sndBuf) (hok : ∀ j < iov.length, oks (i + j) = true) :
    writeAllMem data oks i pcb iov = writeAll data pcb iov := by
  induction iov generalizing pcb i with
  | nil => rfl
  | cons v iov ih =>
      rw [length_iovCells_cons] at hle
      have hv : v.len ≤ pcb.sndBuf := by omega
      have hwrite := tcpWriteMem_eq data hv
      have hrest : (iovCells iov).length ≤ (pcb.tcpWriteMem data v true).sndBuf := by
        have hmod := Nat.mod_le v.len (2 ^ 16)
        unfold sndBuf at hle ⊢
        rw [length_flight_tcpWriteMem, if_pos rfl]
        omega
      have hfirst : oks i = true := hok 0 (by simp)
      have htail := ih (i := i + 1) hrest fun j hj => by
        have := hok (j + 1) (by simpa using hj)
        rwa [show i + 1 + j = i + (j + 1) by omega]
      rw [writeAllMem, writeAll, hfirst, htail, ← hwrite]

/-- The sum of the lengths does not depend on the outcomes. -/
theorem sum_writeAllMem (iov : List Iovec) (pcb : TcpPcb) (i : ℕ) :
    (writeAllMem data oks i pcb iov).2.1 = (iovCells iov).length := by
  induction iov generalizing pcb i with
  | nil => rfl
  | cons v iov ih =>
      rw [length_iovCells_cons]
      exact congrArg (v.len + ·) (ih _ _)

/-- No more bytes are put in flight than there are. -/
theorem length_flight_writeAllMem_le (iov : List Iovec) (pcb : TcpPcb) (i : ℕ) :
    (writeAllMem data oks i pcb iov).2.2.flight.length ≤
      pcb.flight.length + (iovCells iov).length := by
  induction iov generalizing pcb i with
  | nil => simp [writeAllMem, iovCells]
  | cons v iov ih =>
      rw [length_iovCells_cons]
      refine (ih (pcb.tcpWriteMem data v (oks i)) (i + 1)).trans ?_
      have hmod := Nat.mod_le v.len (2 ^ 16)
      rw [length_flight_tcpWriteMem]
      split_ifs <;> omega

/-- Less are, if a part is refused. -/
theorem length_flight_writeAllMem_lt {iov : List Iovec} (pcb : TcpPcb) (i : ℕ)
    (hpos : ∀ v ∈ iov, 0 < v.len) (hbad : ∃ j < iov.length, oks (i + j) = false) :
    (writeAllMem data oks i pcb iov).2.2.flight.length <
      pcb.flight.length + (iovCells iov).length := by
  induction iov generalizing pcb i with
  | nil =>
      obtain ⟨j, hj, -⟩ := hbad
      simp at hj
  | cons v iov ih =>
      have hv := hpos v (by simp)
      rw [length_iovCells_cons]
      show (writeAllMem data oks (i + 1) (pcb.tcpWriteMem data v (oks i)) iov).2.2.flight.length < _
      cases hok : oks i with
      | false =>
          refine (length_flight_writeAllMem_le iov _ _).trans_lt ?_
          rw [length_flight_tcpWriteMem, if_neg (by decide)]
          omega
      | true =>
          obtain ⟨j, hj, hfalse⟩ := hbad
          cases j with
          | zero =>
              rw [Nat.add_zero, hok] at hfalse
              cases hfalse
          | succ j =>
              have hlt := ih (pcb.tcpWriteMem data v true) (i + 1)
                (fun w hw => hpos w (List.mem_cons_of_mem _ hw))
                ⟨j, by simpa using hj, by rwa [show i + 1 + j = i + (j + 1) by omega]⟩
              refine hlt.trans_le ?_
              have hmod := Nat.mod_le v.len (2 ^ 16)
              rw [length_flight_tcpWriteMem, if_pos rfl]
              omega

end writes

end TcpPcb

/-- The parts of the scatter list of unread bytes are not empty. -/
theorem RingBuffer.Regions.reading_pos {r : RingBuffer} {start : ℕ} (h : r.Regions start) :
    ∀ v ∈ r.reading, 0 < v.len := by
  have hrp := h.rp_lt
  have hrda := h.rda_le
  have huse := h.use_le
  have hmax := h.max_lt
  have hupper : sizeSub r.maxSize r.rp = r.maxSize - r.rp := sizeSub_eq (by omega) hmax
  unfold RingBuffer.reading RingBuffer.span
  simp only [hupper]
  split_ifs with hz hle
  · simp
  · simp
    omega
  · rw [sizeSub_eq (by omega) (by omega)]
    simp
    omega

namespace TcpDown

/-- `tcp_splice_b` from the mutex on, with the outcomes of the writes; the flag is whether
`tcp_output` fails. -/
def writeSectionMem (s : TcpDown) (oks : ℕ → Bool) (outputErr : Bool) : Option TcpDown :=
  match s.waiting with
  | none => none
  | some res =>
      let s := { s with waiting := none }
      if s.hasPcb then
        let iov := s.buffer.reading
        if iov ≠ [] then
          let (err, n, pcb) := TcpPcb.writeAllMem s.buffer.data oks 0 s.pcb iov
          some { s with
            buffer := s.buffer.readFinish n
            pcb := pcb
            resB := if err || outputErr then -1 else 1 }
        else if res < 0 then
          some { s with shutdowns := s.shutdowns ++ [(s.ended, s.buffer.rdaSize)], resB := res }
        else some { s with resB := res }
      else some { s with resB := -1 }

inductive MemStep where
  | read (r : Readv)
  | write (oks : ℕ → Bool) (outputErr : Bool)
  | sent (len : ℕ)
  | err

def stepMem (s : TcpDown) : MemStep → Option TcpDown
  | .read r => s.readSection r
  | .write oks outputErr => s.writeSectionMem oks outputErr
  | .sent len => s.sent len
  | .err => s.err

/-- The bytes accepted are the first ones read from the SOCKS socket; the ring lends exactly those
that are not acknowledged; and between two calls of `tcp_splice_b` the ring is empty once all of them
are, which ends the loop behind the splice loop. -/
structure NoGap (s : TcpDown) : Prop where
  accepted : s.pcb.written <+: s.received
  lent : s.buffer.rdaSize ≤ s.buffer.useSize ∧
    s.buffer.useSize - s.buffer.rdaSize = s.pcb.flight.length
  drains : s.waiting = none → s.hasPcb = true → s.pcb.flight = [] → s.buffer.useSize = 0

/-- A write of the step is refused. -/
def Refused (s : TcpDown) : MemStep → Prop
  | .write oks _ => s.waiting ≠ none ∧ s.hasPcb = true ∧
      ∃ i < s.buffer.reading.length, oks i = false
  | _ => False

/-- Between two calls nothing is unread. -/
def Idle (s : TcpDown) : Prop := s.waiting = none → s.hasPcb = true → s.buffer.rdaSize = 0

theorem Inv.noGap {s : TcpDown} {start : ℕ} (h : s.Inv start) (hidle : s.Idle) : s.NoGap := by
  refine ⟨⟨s.buffer.unread, h.stream_eq⟩, h.sound.lent, ?_⟩
  intro hwait hpcb hflight
  have hlen := h.length_flight
  have hrda := hidle hwait hpcb
  rw [hflight, List.length_nil] at hlen
  omega

/-! ### One step -/

section step
variable {s s' : TcpDown} {start : ℕ}

/-- Without a refusal the writes are those of a stack with enough memory. -/
theorem Inv.writeSectionMem_eq (h : s.Inv start) {oks : ℕ → Bool} {outputErr : Bool}
    (hx : ¬ s.Refused (.write oks outputErr)) :
    s.writeSectionMem oks outputErr = s.writeSection outputErr := by
  unfold TcpDown.writeSectionMem TcpDown.writeSection
  cases hw : s.waiting with
  | none => rfl
  | some res =>
      by_cases hpcb : s.hasPcb = true
      · have hok : ∀ j < s.buffer.reading.length, oks (0 + j) = true := by
          intro j hj
          by_contra hfalse
          exact hx ⟨by simp [hw], hpcb, j, hj, by simpa using hfalse⟩
        simp only [TcpPcb.writeAllMem_eq h.reading_le hok]
      · simp only [if_neg hpcb]

/-- A call of `tcp_splice_b` leaves nothing unread. -/
theorem Inv.idle_writeSection (h : s.Inv start) {outputErr : Bool}
    (hs : s.writeSection outputErr = some s') : s'.Idle := by
  intro _ hpcb'
  unfold TcpDown.writeSection at hs
  cases hw : s.waiting with
  | none =>
      rw [hw] at hs
      cases hs
  | some res =>
      simp only [hw] at hs
      by_cases hpcb : s.hasPcb = true
      · rw [if_pos hpcb] at hs
        by_cases hiov : s.buffer.reading = []
        · have hrda := RingBuffer.rdaSize_of_reading hiov
          rw [if_neg (not_not.mpr hiov)] at hs
          split_ifs at hs
          · cases hs
            exact hrda
          · cases hs
            exact hrda
        · obtain ⟨pcb, hall, -⟩ := h.writeAll_reading
          have hrda := h.regions.rda_le
          have huse := h.regions.use_le
          have hmax := h.regions.max_lt
          rw [if_pos hiov, hall] at hs
          cases hs
          show sizeSub s.buffer.rdaSize s.buffer.rdaSize = 0
          rw [sizeSub_eq le_rfl (by omega), Nat.sub_self]
      · rw [if_neg hpcb] at hs
        cases hs
        exact absurd hpcb' hpcb

/-- What a session keeps between the steps. -/
def MemInv (s : TcpDown) : Prop := s.Idle ∧ ∃ start, s.Inv start

/-- After the first section the call is under way. -/
theorem waiting_readSection {r : Readv} (hs : s.readSection r = some s') : s'.waiting ≠ none := by
  simp only [TcpDown.readSection] at hs
  split_ifs at hs
  · cases hs
    simp
  · cases r with
    | data bytes =>
        simp only at hs
        split_ifs at hs
        cases hs
        simp
    | again =>
        cases hs
        simp
    | eof =>
        cases hs
        simp
    | error =>
        cases hs
        simp

theorem MemInv.step {x : MemStep} (h : s.MemInv) (hs : s.stepMem x = some s') (hx : ¬ s.Refused x) :
    s'.MemInv := by
  obtain ⟨hidle, start, hinv⟩ := h
  cases x with
  | read r =>
      exact ⟨fun hwait => absurd hwait (waiting_readSection hs), start, hinv.readSection hs⟩
  | write oks outputErr =>
      rw [stepMem, hinv.writeSectionMem_eq hx] at hs
      exact ⟨hinv.idle_writeSection hs, start, hinv.writeSection hs⟩
  | sent len =>
      refine ⟨?_, hinv.sent hs⟩
      simp only [stepMem, TcpDown.sent] at hs
      split_ifs at hs
      cases hs
      intro hwait hpcb
      rw [RingBuffer.rdaSize_readRelease]
      exact hidle hwait hpcb
  | err =>
      simp only [stepMem, TcpDown.err] at hs
      split_ifs at hs
      cases hs
      exact ⟨fun _ hpcb => absurd hpcb (by simp), start, { hinv with }⟩

/-- After a refusal the ring lends more than is in flight. -/
theorem MemInv.not_noGap {x : MemStep} (h : s.MemInv) (hs : s.stepMem x = some s')
    (hx : s.Refused x) : ¬ s'.NoGap := by
  obtain ⟨-, start, hinv⟩ := h
  cases x with
  | write oks outputErr =>
      obtain ⟨hwait, hpcb, hbad⟩ := hx
      obtain ⟨res, hw⟩ := Option.ne_none_iff_exists'.mp hwait
      have hiov : s.buffer.reading ≠ [] := by
        intro hnil
        obtain ⟨i, hi, -⟩ := hbad
        rw [hnil] at hi
        simp at hi
      have hlt : (TcpPcb.writeAllMem s.buffer.data oks 0 s.pcb s.buffer.reading).2.2.flight.length <
          s.pcb.flight.length + (iovCells s.buffer.reading).length :=
        TcpPcb.length_flight_writeAllMem_lt s.pcb 0 hinv.regions.reading_pos (by simpa using hbad)
      have hsum : (TcpPcb.writeAllMem s.buffer.data oks 0 s.pcb s.buffer.reading).2.1 =
          (iovCells s.buffer.reading).length := TcpPcb.sum_writeAllMem s.buffer.reading s.pcb 0
      have hrda := hinv.regions.rda_le
      have huse := hinv.regions.use_le
      have hmax := hinv.regions.max_lt
      have hlen := hinv.length_flight
      rw [hinv.regions.cells_reading, RingBuffer.unreadCells, length_around] at hlt hsum
      simp only [stepMem, TcpDown.writeSectionMem, hw, hpcb, if_true, if_pos hiov, hsum] at hs
      cases hs
      intro hgap
      have hlent : s.buffer.useSize - sizeSub s.buffer.rdaSize s.buffer.rdaSize =
        (TcpPcb.writeAllMem s.buffer.data oks 0 s.pcb s.buffer.reading).2.2.flight.length := hgap.lent.2
      rw [sizeSub_eq le_rfl (by omega), Nat.sub_self] at hlent
      omega
  | read r => exact absurd hx id
  | sent len => exact absurd hx id
  | err => exact absurd hx id

/-- A session with a buffer of no bytes, which never reads or writes. -/
structure NoRing (s : TcpDown) : Prop where
  max : s.buffer.maxSize = 0
  use : s.buffer.useSize = 0
  rda : s.buffer.rdaSize = 0
  flight : s.pcb.flight = []
  written : s.pcb.written = []

theorem NoRing.reading (h : s.NoRing) : s.buffer.reading = [] := by
  rw [RingBuffer.reading, if_pos h.rda]

theorem NoRing.not_refused (h : s.NoRing) (x : MemStep) : ¬ s.Refused x := by
  cases x with
  | write oks outputErr =>
      rintro ⟨-, -, i, hi, -⟩
      rw [h.reading] at hi
      simp at hi
  | read r => exact id
  | sent len => exact id
  | err => exact id

theorem NoRing.noGap (h : s.NoRing) : s.NoGap := by
  refine ⟨by rw [h.written]; exact List.nil_prefix, ?_, fun _ _ _ => h.use⟩
  rw [h.use, h.rda, h.flight]
  exact ⟨le_rfl, rfl⟩

theorem NoRing.step {x : MemStep} (h : s.NoRing) (hs : s.stepMem x = some s') : s'.NoRing := by
  cases x with
  | read r =>
      have hfull : s.buffer.writing = [] := by
        rw [RingBuffer.writing, if_pos (h.use.trans h.max.symm)]
      simp only [stepMem, TcpDown.readSection, hfull, if_true] at hs
      split_ifs at hs
      cases hs
      exact { h with }
  | write oks outputErr =>
      simp only [stepMem, TcpDown.writeSectionMem, h.reading, ne_eq, not_true_eq_false,
        if_false] at hs
      split at hs
      · cases hs
      · split_ifs at hs
        all_goals
          cases hs
          exact { h with }
  | sent len =>
      simp only [stepMem, TcpDown.sent, h.flight, List.length_nil] at hs
      split_ifs at hs with hlen
      obtain rfl : len = 0 := by omega
      rw [Option.some.injEq] at hs
      subst hs
      have huse : sizeSub s.buffer.useSize 0 = 0 := by rw [h.use, sizeSub_eq le_rfl (by omega)]
      refine ⟨?_, ?_, ?_, rfl, h.written⟩
      · rw [RingBuffer.maxSize_readRelease, h.max]
      · simp [RingBuffer.readRelease, huse]
      · simp [RingBuffer.readRelease, huse, h.rda]
  | err =>
      simp only [stepMem, TcpDown.err] at hs
      split_ifs at hs
      cases hs
      exact { h with }

end step

/-! ### The result -/

theorem init_noRing (data : Mem) : (init 0 data).NoRing := ⟨rfl, rfl, rfl, rfl, rfl⟩

theorem init_memInv {size : ℕ} (data : Mem) (h₀ : 0 < size) (h : size ≤ tcpSndBuf) :
    (init size data).MemInv :=
  ⟨fun _ _ => rfl, 0, init_inv data h₀ h⟩

/-- Along every run, with any outcome of each write: there is no gap exactly if no write is
refused. -/
theorem everyState_noGap_iff (size : ℕ) (data : Mem) (h : size ≤ tcpSndBuf) (xs : List MemStep) :
    EveryState stepMem NoGap (init size data) xs ↔
      EveryStep stepMem (fun s x => ¬ s.Refused x) (init size data) xs := by
  refine everyState_iff (fun s => s.MemInv ∨ s.NoRing) ?_ ?_ ?_ ?_ xs
  · rintro s (⟨hidle, _, hinv⟩ | hno)
    · exact hinv.noGap hidle
    · exact hno.noGap
  · rintro s x s' (hinv | hno) hs hx
    · exact .inl (hinv.step hs hx)
    · exact .inr (hno.step hs)
  · rintro s x s' (hinv | hno) hs hx
    · exact hinv.not_noGap hs hx
    · exact absurd hx (hno.not_refused x)
  · rcases Nat.eq_zero_or_pos size with rfl | hpos
    · exact .inr (init_noRing data)
    · exact .inl (init_memInv data hpos h)

/-- A ring of four cells that wraps around, with all writes accepted. -/
def wrapRun : List MemStep :=
  [.read (.data [1, 2, 3]), .write (fun _ => true) false, .sent 2, .read (.data [4, 5]),
    .write (fun _ => true) false, .sent 3]

theorem noGap_wrapRun :
    (runSteps stepMem (init 4 (fun _ => 0)) wrapRun).map (fun s => (s.received, s.pcb.written)) =
      some ([1, 2, 3, 4, 5], [1, 2, 3, 4, 5]) ∧
    EveryState stepMem NoGap (init 4 (fun _ => 0)) wrapRun := by
  refine ⟨by decide +kernel, (everyState_noGap_iff 4 _ (by decide) _).mpr ?_⟩
  have haccepted : ∀ s : TcpDown, ¬ s.Refused (.write (fun _ => true) false) := by
    rintro s ⟨-, -, i, -, hi⟩
    cases hi
  exact fun _ _ => ⟨id, fun _ _ => ⟨haccepted _, fun _ _ => ⟨id, fun _ _ => ⟨id, fun _ _ =>
    ⟨haccepted _, fun _ _ => ⟨id, trivial⟩⟩⟩⟩⟩⟩

/-- A ring of four cells that wraps around, where the upper part is refused and the lower part is
accepted. -/
def gapRun : List MemStep :=
  [.read (.data [1, 2, 3]), .write (fun _ => true) false, .sent 2, .read (.data [4, 5]),
    .write (fun i => i != 0) false, .sent 2]

/-- The byte 4 is missing, and the ring keeps it when everything accepted is acknowledged. -/
theorem gapRun_gap : ∃ s, runSteps stepMem (init 4 (fun _ => 0)) gapRun = some s ∧
    s.received = [1, 2, 3, 4, 5] ∧ s.pcb.written = [1, 2, 3, 5] ∧ s.pcb.flight = [] ∧
    s.buffer.useSize = 1 ∧ ¬ s.NoGap := by
  have hrun : (runSteps stepMem (init 4 (fun _ => 0)) gapRun).map (fun s =>
      (s.received, s.pcb.written, s.pcb.flight, s.buffer.useSize)) =
      some ([1, 2, 3, 4, 5], [1, 2, 3, 5], [], 1) := by decide +kernel
  rw [Option.map_eq_some_iff] at hrun
  obtain ⟨s, hs, hout⟩ := hrun
  simp only [Prod.mk.injEq] at hout
  obtain ⟨hrec, hwritten, hflight, huse⟩ := hout
  refine ⟨s, hs, hrec, hwritten, hflight, huse, ?_⟩
  intro h
  have hprefix := h.accepted
  rw [hrec, hwritten] at hprefix
  exact absurd hprefix (by decide)

end TcpDown

end HevTunnel
