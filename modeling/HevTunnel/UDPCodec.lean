import HevTunnel.Addr
import HevTunnel.TaskIO

/-! # UDP messages over TCP

`hev-socks5-udp.c` carries UDP messages over a TCP stream as frames: the payload length, the
header length, the address and the payload.

* `sendmmsgTcp` writes a batch of messages.
* `recvmmsgTcp` reads up to `num` frames, one `recvFrame` each.  The first five bytes, which
  straddle the header and the address, are read without waiting; the rest is waited for.

`recv_returns_sent`: over a connection that stays up the reader returns exactly what was sent,
however the writer batches, the stream fragments and the reader asks. -/

namespace HevTunnel

/-- `UDP_BUF_SIZE`, the length of every receive buffer. -/
def udpBufSize : ℕ := 1500

/-- `HevSocks5UDPMsg` to send; `addr` is `none` when the type of the address is unknown. -/
structure UdpMsg where
  addr : Option Addr
  buf : List Byte

/-- `HevSocks5UDPMsg` as received: the bytes at `addr` up to `buf`, and the payload. -/
structure UdpEntry where
  addr : List Byte
  buf : List Byte
deriving DecidableEq, Repr

/-! ### Sending -/

/-- The three buffers of one message: `datlen` and `hdrlen`, the address, the payload. -/
def frameIov (addr : Addr) (buf : List Byte) : List (List Byte) :=
  [[UInt8.ofNat (buf.length / 256), UInt8.ofNat buf.length, UInt8.ofNat (3 + addr.len)],
    addr.bytes, buf]

/-- The buffers of a batch. -/
def batchIov : List UdpMsg → Option (List (List Byte))
  | [] => some []
  | m :: ms => do
      let addr ← m.addr
      let iov ← batchIov ms
      pure (frameIov addr m.buf ++ iov)

/-- `hev_socks5_udp_sendmmsg_tcp`: the result, the bytes written and the events left. -/
def sendmmsgTcp (msgv : List UdpMsg) (events : List IoEvent) :
    Option (Int × List Byte × List IoEvent) :=
  match batchIov msgv with
  | none => some (-1, [], events)
  | some iov => do
      let (res, out, events) ← sendmsg iov events
      pure (if res ≤ 0 then -1 else (msgv.length : Int), out, events)

/-- Batches sent one after the other: the bytes on the stream. -/
def sendBatches : List (List UdpMsg) → List IoEvent → Option (List Byte)
  | [], _ => some []
  | b :: bs, events => do
      let (_, out, events) ← sendmmsgTcp b events
      let rest ← sendBatches bs events
      pure (out ++ rest)

/-! ### Receiving -/

/-- How one round of `hev_socks5_udp_recvmmsg_tcp` ends. -/
inductive FrameRes where
  /-- The first five bytes were not read; `res` is what the reads returned. -/
  | head (res : Int)
  /-- The lengths in the header are out of range. -/
  | refused
  /-- The rest of the frame was not read; `res` is what the read returned. -/
  | body (res : Int)
  | msg (e : UdpEntry)

/-- The first five bytes: what the reads returned, and the bytes. -/
def recvHead (s : Sock) (nonblock : Bool) : Option (Int × List Byte × Sock) := do
  let (res, hd, s) ← recv s 5 nonblock false
  if 0 < res ∧ res < 5 then do
    let (res', hd', s) ← recv s (5 - res.toNat) false true
    pure (res + res', hd ++ hd', s)
  else pure (res, hd, s)

/-- The rest of a frame whose first five bytes are `hd`. -/
def recvBody (s : Sock) (hd : List Byte) : Option (FrameRes × Sock) :=
  let hdrlen := (hd.getD 2 0).toNat
  if hdrlen < 5 then some (.refused, s)
  else
    let addrlen := hdrlen - 3
    let datlen := (hd.getD 0 0).toNat * 256 + (hd.getD 1 0).toNat
    if datlen > udpBufSize - addrlen then some (.refused, s)
    else do
      let (res, data, s) ← recvmsg s [addrlen - 2, datlen]
      if res ≠ ((addrlen - 2 + datlen : ℕ) : Int) then pure (.body res, s)
      else pure (.msg ⟨hd.getD 3 0 :: hd.getD 4 0 :: data.take (addrlen - 2),
        data.drop (addrlen - 2)⟩, s)

/-- One round of `hev_socks5_udp_recvmmsg_tcp`. -/
def recvFrame (s : Sock) (nonblock : Bool) : Option (FrameRes × Sock) := do
  let (res, hd, s) ← recvHead s nonblock
  if res ≠ 5 then pure (.head res, s)
  else recvBody s hd

/-- The rounds of `hev_socks5_udp_recvmmsg_tcp` with `n` left; `out` are the messages filled,
`rlen` in number. -/
def recvmmsgLoop (nonblock : Bool) :
    ℕ → List UdpEntry → Sock → Option (Int × List UdpEntry × Sock)
  | 0, out, s => some ((out.length : Int), out, s)
  | n + 1, out, s => do
      let (r, s) ← recvFrame s nonblock
      match r with
      | .head res => pure (if out ≠ [] then (out.length : Int) else res, out, s)
      | .refused => pure (-1, out, s)
      | .body res => pure (res, out, s)
      | .msg e => recvmmsgLoop nonblock n (out ++ [e]) s

/-- `hev_socks5_udp_recvmmsg_tcp`: the result, the entries that are filled and the socket. -/
def recvmmsgTcp (s : Sock) (num : ℕ) (nonblock : Bool) : Option (Int × List UdpEntry × Sock) :=
  recvmmsgLoop nonblock num [] s

/-! ### A frame and its message -/

/-- A message with an address of known type. -/
structure Datagram where
  addr : Addr
  buf : List Byte

namespace Datagram

def toMsg (d : Datagram) : UdpMsg := ⟨some d.addr, d.buf⟩

/-- The entry that the message is received as. -/
def entry (d : Datagram) : UdpEntry := ⟨d.addr.bytes, d.buf⟩

/-- The bytes of the message on the stream. -/
def frame (d : Datagram) : List Byte := (frameIov d.addr d.buf).flatten

/-- The header length fits its byte, and the message a receive buffer. -/
def Fits (d : Datagram) : Prop := 3 + d.addr.len ≤ 255 ∧ d.buf.length ≤ udpBufSize - d.addr.len

end Datagram

theorem batchIov_toMsg (ds : List Datagram) :
    ∃ iov, batchIov (ds.map Datagram.toMsg) = some iov ∧
      iov.flatten = ds.flatMap Datagram.frame := by
  induction ds with
  | nil => exact ⟨[], rfl, rfl⟩
  | cons d ds ih =>
      obtain ⟨iov, hiov, hflat⟩ := ih
      refine ⟨frameIov d.addr d.buf ++ iov, ?_, ?_⟩
      · simp [batchIov, Datagram.toMsg, hiov]
      · rw [List.flatten_append, hflat, List.flatMap_cons]
        rfl

/-- Over a connection that stays up, a batch is written as its frames. -/
theorem sendBatches_benign {bs : List (List Datagram)} {es : List IoEvent}
    (hb : ∀ e ∈ es, e.benign = true) {out : List Byte}
    (h : sendBatches (bs.map (List.map Datagram.toMsg)) es = some out) :
    out = bs.flatten.flatMap Datagram.frame := by
  induction bs generalizing es out with
  | nil =>
      cases h
      rfl
  | cons b bs ih =>
      obtain ⟨iov, hiov, hflat⟩ := batchIov_toMsg b
      simp only [List.map_cons, sendBatches, sendmmsgTcp, hiov, Option.bind_eq_bind,
        Option.bind_eq_some_iff, Option.pure_def, Option.some.injEq] at h
      obtain ⟨_, ⟨⟨res, o, es'⟩, hsend, rfl⟩, rest, hrest, rfl⟩ := h
      obtain ⟨rfl, -, hb'⟩ := sendmsg_benign hb hsend
      rw [ih hb' hrest, hflat, List.flatten_cons, List.flatMap_append]

/-! ### Reading a frame -/

/-- The first five bytes are read in one or two reads, or not at all, or are still waited for. -/
theorem recvHead_benign {s : Sock} (hb : ∀ e ∈ s.events, e.benign = true) :
    (∃ s', recvHead s true = some (5, s.input.take 5, s') ∧ 5 ≤ s.input.length ∧ Advanced s s' 5) ∨
    (∃ e es, s.events = e :: es ∧ (s.input ≠ [] → e = .again) ∧
      recvHead s true = some (-1, [], ⟨s.input, es, true⟩)) ∨
    (recvHead s true = none ∧ (s.input = [] → s.events = []) ∧
      (5 ≤ s.input.length → dataCount s.events < 5)) := by
  unfold recvHead
  cases hev : s.events with
  | nil => exact .inr (.inr ⟨by simp [recv, hev, recvLoop], fun _ => rfl, fun _ => by decide⟩)
  | cons e es =>
      have hb' : ∀ e ∈ es, e.benign = true := fun e' h' => hb e' (by simp [hev, h'])
      obtain rfl | ⟨k, rfl⟩ := IoEvent.benign_cases (hb e (by simp [hev]))
      · exact .inr (.inl ⟨_, es, rfl, fun _ => rfl, by simp [recv_dontwait_again hev]⟩)
      · by_cases hin : s.input = []
        · exact .inr (.inl ⟨_, es, rfl, fun hne => absurd hin hne,
            by simp [recv, hev, recvLoop, sysRecv, hin]⟩)
        have hpos : 0 < s.input.length := List.length_pos_iff.mpr hin
        rw [recv_dontwait_data hev hin, ← hev]
        generalize hm : min (k + 1) 5 = m
        have hadv : Advanced s ⟨s.input.drop m, es, s.eagain⟩ m := by
          refine ⟨rfl, hb', by simp [hev], ?_⟩
          rw [hev, dataCount_data]
          show dataCount es + 1 ≤ dataCount es + m
          omega
        have hcount := hadv.count
        simp only [List.length_take, Option.bind_eq_bind, Option.bind_some]
        by_cases hshort : min m s.input.length < 5
        · -- the rest of the five bytes is waited for
          rw [if_pos (by omega), Int.toNat_natCast]
          rcases recv_benign (s := ⟨s.input.drop m, es, s.eagain⟩) hb' (5 - min m s.input.length) with
            ⟨s', hs, hle, hne, -, -, hadv'⟩ | ⟨hs, hcount'⟩
          · have hlt : m < s.input.length := by
              by_contra hlt
              exact hne (List.drop_eq_nil_of_le (not_lt.mp hlt))
            rw [Nat.min_eq_left hlt.le] at hs hle hshort hadv' ⊢
            have hsum : m + (5 - m) = 5 := by omega
            have hall := hadv.trans (hadv' (by omega))
            rw [hsum] at hall
            rw [List.length_drop] at hle
            refine .inl ⟨s', ?_, by omega, hall⟩
            rw [hs]
            simp only [Option.bind_some, Option.pure_def, ← List.take_add, hsum]
            rw [show (m : Int) + ((5 - m : ℕ) : Int) = 5 by omega]
          · refine .inr (.inr ⟨by rw [hs]; rfl, fun hnil => absurd hnil hin, fun h5 => ?_⟩)
            rw [List.length_drop] at hcount'
            simp only at hcount' hcount
            omega
        · obtain rfl : m = 5 := by omega
          rw [if_neg (by omega), show min 5 s.input.length = 5 by omega]
          exact .inl ⟨_, rfl, by omega, hadv⟩

/-- The test of a header with the bytes `hi` and `lo` of the payload length and the header length
`hl`. -/
def HeadRefused (hi lo hl : Byte) : Prop :=
  hl.toNat < 5 ∨ udpBufSize - (hl.toNat - 3) < hi.toNat * 256 + lo.toNat

instance (hi lo hl : Byte) : Decidable (HeadRefused hi lo hl) :=
  inferInstanceAs (Decidable (hl.toNat < 5 ∨ udpBufSize - (hl.toNat - 3) < hi.toNat * 256 + lo.toNat))

/-- The number of bytes behind the first five. -/
def bodyLen (hi lo hl : Byte) : ℕ := hl.toNat - 3 - 2 + (hi.toNat * 256 + lo.toNat)

/-- The message behind a header. -/
def bodyEntry (hi lo hl t l : Byte) (rest : List Byte) : UdpEntry :=
  ⟨t :: l :: (rest.take (bodyLen hi lo hl)).take (hl.toNat - 3 - 2),
    (rest.take (bodyLen hi lo hl)).drop (hl.toNat - 3 - 2)⟩

theorem recvBody_eq (s : Sock) (hi lo hl t l : Byte) : recvBody s [hi, lo, hl, t, l] =
    if HeadRefused hi lo hl then some (.refused, s)
    else (recv s (bodyLen hi lo hl) false true).map (fun r : Int × List Byte × Sock =>
      if r.1 = bodyLen hi lo hl then
        (.msg ⟨t :: l :: r.2.1.take (hl.toNat - 3 - 2), r.2.1.drop (hl.toNat - 3 - 2)⟩, r.2.2)
      else (.body r.1, r.2.2)) := by
  have hsum : [hl.toNat - 3 - 2, hi.toNat * 256 + lo.toNat].sum = bodyLen hi lo hl := by
    simp [bodyLen]
  simp only [recvBody, List.getD_cons_zero, List.getD_cons_succ, recvmsg_eq, hsum]
  by_cases href : HeadRefused hi lo hl
  · rw [if_pos href]
    rcases href with hhdr | hdat
    · rw [if_pos hhdr]
    · rw [if_pos hdat, ite_self]
  · rw [if_neg href]
    rw [HeadRefused, not_or] at href
    rw [if_neg href.1, if_neg href.2]
    cases recv s (bodyLen hi lo hl) false true with
    | none => rfl
    | some r =>
        simp only [Option.bind_eq_bind, Option.bind_some, Option.map_some, bodyLen, ne_eq, ite_not]
        exact (apply_ite some _ _ _).symm

theorem exists_five {input : List Byte} (h : 5 ≤ input.length) :
    ∃ hi lo hl t l rest, input = hi :: lo :: hl :: t :: l :: rest := by
  rcases input with _ | ⟨hi, _ | ⟨lo, _ | ⟨hl, _ | ⟨t, _ | ⟨l, rest⟩⟩⟩⟩⟩
  case cons.cons.cons.cons.cons => exact ⟨hi, lo, hl, t, l, rest, rfl⟩
  all_goals simp at h

/-- A round finds nothing, refuses the first five bytes, reads a message, or still waits. -/
theorem recvFrame_benign {s : Sock} (hb : ∀ e ∈ s.events, e.benign = true) :
    (∃ e es, s.events = e :: es ∧ (s.input ≠ [] → e = .again) ∧
      recvFrame s true = some (.head (-1), ⟨s.input, es, true⟩)) ∨
    (∃ hi lo hl t l rest s', s.input = hi :: lo :: hl :: t :: l :: rest ∧
      (∀ e ∈ s'.events, e.benign = true) ∧
      ((HeadRefused hi lo hl ∧ recvFrame s true = some (.refused, s') ∧ s'.input = rest) ∨
       (¬ HeadRefused hi lo hl ∧ rest ≠ [] ∧ bodyLen hi lo hl ≤ rest.length ∧
        recvFrame s true = some (.msg (bodyEntry hi lo hl t l rest), s') ∧
        s'.input = rest.drop (bodyLen hi lo hl) ∧
        (0 < bodyLen hi lo hl → Advanced s s' (5 + bodyLen hi lo hl))))) ∨
    (recvFrame s true = none ∧ (s.input = [] → s.events = []) ∧
      ∀ hi lo hl t l rest, s.input = hi :: lo :: hl :: t :: l :: rest → 0 < bodyLen hi lo hl →
        bodyLen hi lo hl ≤ rest.length → dataCount s.events < 5 + bodyLen hi lo hl) := by
  unfold recvFrame
  rcases recvHead_benign hb with ⟨s₁, hs, h5, hadv⟩ | ⟨e, es, hev, hagain, hs⟩ | ⟨hs, hempty, hcount⟩
  · obtain ⟨hi, lo, hl, t, l, rest, hin⟩ := exists_five h5
    have hin₁ : s₁.input = rest := by rw [hadv.input, hin]; rfl
    have hhead : s.input.take 5 = [hi, lo, hl, t, l] := by rw [hin]; rfl
    rw [hs, hhead]
    simp only [Option.bind_eq_bind, Option.bind_some, ne_eq, not_true_eq_false, if_false, recvBody_eq]
    by_cases href : HeadRefused hi lo hl
    · rw [if_pos href]
      exact .inr (.inl ⟨hi, lo, hl, t, l, rest, s₁, hin, hadv.benign, .inl ⟨href, rfl, hin₁⟩⟩)
    rw [if_neg href]
    rcases recv_benign hadv.benign (bodyLen hi lo hl) with
      ⟨s₂, hs₂, hle, hne, hin₂, hb₂, hadv₂⟩ | ⟨hs₂, hcount₂⟩
    · rw [hin₁] at hs₂ hle hne hin₂
      rw [hs₂]
      refine .inr (.inl ⟨hi, lo, hl, t, l, rest, s₂, hin, hb₂, .inr ⟨href, hne, hle, ?_, hin₂,
        fun hpos => hadv.trans (hadv₂ hpos)⟩⟩)
      simp [bodyEntry]
    · refine .inr (.inr ⟨by rw [hs₂]; rfl, fun hnil => by simp [hnil] at h5, ?_⟩)
      intro hi' lo' hl' t' l' rest' hin' hpos hle
      simp only [hin, List.cons.injEq] at hin'
      obtain ⟨rfl, rfl, rfl, rfl, rfl, rfl⟩ := hin'
      have := hadv.count
      have := hcount₂ hpos (by rw [hin₁]; exact hle)
      omega
  · exact .inl ⟨e, es, hev, hagain, by rw [hs]; rfl⟩
  · refine .inr (.inr ⟨by rw [hs]; rfl, hempty, ?_⟩)
    intro hi lo hl t l rest hin _ _
    have := hcount (by rw [hin]; simp)
    omega

/-- The value of a length field of two bytes. -/
theorem datlen_exact {n : ℕ} (h : n ≤ 65535) :
    (UInt8.ofNat (n / 256)).toNat * 256 + (UInt8.ofNat n).toNat = n := by
  rw [UInt8.toNat_ofNat', UInt8.toNat_ofNat']
  omega

namespace Datagram

/-- The five bytes that are read first, and what follows them. -/
theorem frame_eq (d : Datagram) : ∃ t l rest, d.addr.bytes = t :: l :: rest ∧
    rest.length = d.addr.len - 2 ∧
    d.frame.take 5 = [UInt8.ofNat (d.buf.length / 256), UInt8.ofNat d.buf.length,
      UInt8.ofNat (3 + d.addr.len), t, l] ∧ d.frame.drop 5 = rest ++ d.buf := by
  obtain ⟨t, l, rest, h, -⟩ := addrLen_bytes d.addr
  have hlen := d.addr.length_bytes
  rw [h, List.length_cons, List.length_cons] at hlen
  refine ⟨t, l, rest, h, by omega, ?_, ?_⟩
  · simp [frame, frameIov, h]
  · simp [frame, frameIov, h]

theorem length_frame (d : Datagram) : d.frame.length = 3 + d.addr.len + d.buf.length := by
  simp [frame, frameIov]
  omega

/-- The header length of a message that fits. -/
theorem Fits.hdrlen {d : Datagram} (h : d.Fits) :
    (UInt8.ofNat (3 + d.addr.len)).toNat = 3 + d.addr.len := by
  rw [UInt8.toNat_ofNat']
  exact Nat.mod_eq_of_lt (by have := h.1; omega)

/-- The payload length of a message that fits. -/
theorem Fits.datlen {d : Datagram} (h : d.Fits) :
    (UInt8.ofNat (d.buf.length / 256)).toNat * 256 + (UInt8.ofNat d.buf.length).toNat =
      d.buf.length := by
  have hle : d.buf.length ≤ 1500 := le_trans h.2 (Nat.sub_le _ _)
  exact datlen_exact (by omega)

end Datagram

/-- What a reader sees of a message that fits. -/
theorem Datagram.Fits.front {d : Datagram} (hd : d.Fits) (tail : List Byte) :
    ∃ hi lo hl t l rest, d.frame ++ tail = hi :: lo :: hl :: t :: l :: rest ∧
      ¬ HeadRefused hi lo hl ∧ rest ≠ [] ∧ bodyLen hi lo hl ≤ rest.length ∧
      bodyEntry hi lo hl t l rest = d.entry ∧ rest.drop (bodyLen hi lo hl) = tail ∧
      0 < bodyLen hi lo hl ∧ 5 + bodyLen hi lo hl = d.frame.length := by
  obtain ⟨t, l, arest, haddr, harest, hhead, htail⟩ := d.frame_eq
  have hge := d.addr.len_ge
  have hbody : bodyLen (UInt8.ofNat (d.buf.length / 256)) (UInt8.ofNat d.buf.length)
      (UInt8.ofNat (3 + d.addr.len)) = (arest ++ d.buf).length := by
    rw [bodyLen, hd.hdrlen, hd.datlen, List.length_append, harest]
    omega
  refine ⟨UInt8.ofNat (d.buf.length / 256), UInt8.ofNat d.buf.length,
    UInt8.ofNat (3 + d.addr.len), t, l, arest ++ d.buf ++ tail, ?_, ?_, ?_, ?_, ?_, ?_, ?_, ?_⟩
  · rw [← List.take_append_drop 5 d.frame, hhead, htail]
    simp
  · rintro (hhead | hhead)
    · rw [hd.hdrlen] at hhead
      omega
    · have := hd.2
      rw [hd.hdrlen, hd.datlen] at hhead
      omega
  · intro hnil
    have := congrArg List.length hnil
    rw [List.length_append, List.length_append, List.length_nil] at this
    omega
  · rw [hbody, List.append_assoc, List.length_append, List.length_append, List.length_append]
    omega
  · have hsub : (UInt8.ofNat (3 + d.addr.len)).toNat - 3 - 2 = arest.length := by
      rw [hd.hdrlen, harest]
      omega
    rw [bodyEntry, hbody, List.take_left, hsub, List.take_left, List.drop_left, Datagram.entry, haddr]
  · rw [hbody, List.drop_left]
  · rw [hbody, List.length_append, harest]
    omega
  · rw [hbody, List.length_append, harest, d.length_frame]
    omega

/-! ### Reading a batch -/

/-- From `s` to `s'` the frames of `got` were read, and those of `rest` are still to come. -/
structure FramesRead (s s' : Sock) (got rest : List Datagram) : Prop where
  input : s'.input = rest.flatMap Datagram.frame
  benign : ∀ e ∈ s'.events, e.benign = true
  count : rest ≠ [] → dataCount s.events ≤ dataCount s'.events + (got.flatMap Datagram.frame).length

theorem FramesRead.cons {s s₁ s' : Sock} {d : Datagram} {got rest : List Datagram}
    (h₁ : Advanced s s₁ d.frame.length) (h : FramesRead s₁ s' got rest) :
    FramesRead s s' (d :: got) rest where
  input := h.input
  benign := h.benign
  count := by
    intro hr
    have := h.count hr
    have := h₁.count
    rw [List.flatMap_cons, List.length_append]
    omega

/-- The reads of a batch return: the next messages, as many as the result says, or, if there are
none, that nothing is there yet. -/
def BatchReturns (n : ℕ) (ds : List Datagram) (out : List UdpEntry) (s : Sock) : Prop :=
  ∃ ret got rest s', ds = got ++ rest ∧ FramesRead s s' got rest ∧
    recvmmsgLoop true n out s = some (ret, out ++ got.map Datagram.entry, s') ∧
    got.length ≤ n ∧ s'.events.length ≤ s.events.length ∧
    (0 < n → s'.events.length < s.events.length) ∧
    ((ret = ((out ++ got.map Datagram.entry).length : ℕ) ∧
      (0 < n → out ++ got.map Datagram.entry ≠ [])) ∨
     (ret = -1 ∧ out = [] ∧ got = [] ∧ s'.eagain = true))

/-- A round that finds nothing ends the batch. -/
theorem batchReturns_head (n : ℕ) {ds : List Datagram} (out : List UdpEntry) {s : Sock}
    (hb : ∀ e ∈ s.events, e.benign = true) (hin : s.input = ds.flatMap Datagram.frame)
    {e : IoEvent} {es : List IoEvent} (hev : s.events = e :: es)
    (hs : recvFrame s true = some (.head (-1), ⟨s.input, es, true⟩)) (hagain : ds ≠ [] → e = .again) :
    BatchReturns (n + 1) ds out s := by
  have hread : FramesRead s ⟨s.input, es, true⟩ [] ds := by
    refine ⟨hin, fun e' h' => hb e' (by simp [hev, h']), ?_⟩
    intro hne
    rw [hev, hagain hne, dataCount_again]
    simp
  refine ⟨if out ≠ [] then (out.length : Int) else -1, [], ds, _, rfl, hread, ?_, by simp,
    by simp [hev], by simp [hev], ?_⟩
  · simp [recvmmsgLoop, hs]
  · by_cases hout : out = []
    · exact .inr ⟨by simp [hout], hout, rfl, rfl⟩
    · exact .inl ⟨by simp [hout], by simp [hout]⟩

/-- The messages before a batch that returns come from the same batch. -/
theorem BatchReturns.cons {n : ℕ} {d : Datagram} {ds : List Datagram} {out : List UdpEntry}
    {s s₁ : Sock} (hs : recvFrame s true = some (.msg d.entry, s₁))
    (hadv : Advanced s s₁ d.frame.length) (h : BatchReturns n ds (out ++ [d.entry]) s₁) :
    BatchReturns (n + 1) (d :: ds) out s := by
  obtain ⟨ret, got, rest, s', hds, hread, hr, hn, hle, -, hret⟩ := h
  have hlt := hadv.shorter
  have hassoc : out ++ [d.entry] ++ got.map Datagram.entry =
      out ++ (d :: got).map Datagram.entry := by simp
  rw [hassoc] at hr hret
  refine ⟨ret, d :: got, rest, s', by rw [hds]; rfl, .cons hadv hread, ?_,
    by rw [List.length_cons]; omega, by omega, by omega, ?_⟩
  · rw [← hr]
    simp [recvmmsgLoop, hs]
  · rcases hret with ⟨hret, -⟩ | ⟨-, hout, -⟩
    · exact .inl ⟨hret, by simp⟩
    · simp at hout

/-- Reads of a connection that stays up return, or still wait.  They wait only while the script has
let through no more pieces than there are bytes. -/
theorem recvmmsgLoop_benign (n : ℕ) {ds : List Datagram} (hfit : ∀ d ∈ ds, d.Fits)
    (out : List UdpEntry) {s : Sock} (hb : ∀ e ∈ s.events, e.benign = true)
    (hin : s.input = ds.flatMap Datagram.frame) :
    BatchReturns n ds out s ∨
    (recvmmsgLoop true n out s = none ∧
      dataCount s.events ≤ (ds.flatMap Datagram.frame).length) := by
  induction n generalizing ds out s with
  | zero =>
      refine .inl ⟨_, [], ds, s, rfl, ⟨hin, hb, fun _ => by simp⟩, ?_, by simp, by simp, by simp,
        .inl ⟨rfl, by simp⟩⟩
      simp [recvmmsgLoop]
  | succ n ih =>
      cases ds with
      | nil =>
          rcases recvFrame_benign hb with ⟨e, es, hev, -, hs⟩ | ⟨_, _, _, _, _, _, _, hcons, -⟩ |
            ⟨hs, hempty, -⟩
          · exact .inl (batchReturns_head n out hb hin hev hs (by simp))
          · rw [hin] at hcons
            cases hcons
          · exact .inr ⟨by simp [recvmmsgLoop, hs], by simp [hempty hin, dataCount]⟩
      | cons d ds =>
          have hfit' : ∀ d' ∈ ds, d'.Fits := fun d' h' => hfit d' (List.mem_cons_of_mem _ h')
          obtain ⟨hi, lo, hl, t, l, rest, hframe, href, -, hle, hentry, hdrop, hpos, hlen⟩ :=
            (hfit d (by simp)).front (ds.flatMap Datagram.frame)
          have hcons : s.input = hi :: lo :: hl :: t :: l :: rest := by
            rw [hin, List.flatMap_cons, hframe]
          rw [List.flatMap_cons, List.length_append]
          rcases recvFrame_benign hb with ⟨e, es, hev, hagain, hs⟩ |
            ⟨_, _, _, _, _, _, s₁, hcons', -, hround⟩ | ⟨hs, -, hcount⟩
          · exact .inl (batchReturns_head n out hb hin hev hs (fun _ => hagain (by simp [hcons])))
          · rw [hcons] at hcons'
            simp only [List.cons.injEq] at hcons'
            obtain ⟨rfl, rfl, rfl, rfl, rfl, rfl⟩ := hcons'
            obtain ⟨href', -⟩ | ⟨-, -, -, hs, hin₁, hadv⟩ := hround
            · exact absurd href' href
            rw [hentry] at hs
            rw [hdrop] at hin₁
            have hadv := hadv hpos
            rw [hlen] at hadv
            rcases ih hfit' (out ++ [d.entry]) hadv.benign hin₁ with hret | ⟨hr, hcount⟩
            · exact .inl (hret.cons hs hadv)
            · have := hadv.count
              refine .inr ⟨?_, by omega⟩
              simp [recvmmsgLoop, hs, hr]
          · have := hcount hi lo hl t l rest hcons hpos hle
            exact .inr ⟨by simp [recvmmsgLoop, hs], by omega⟩

/-! ### Successive calls -/

/-- A call that has returned: what was asked for, the result, whether `errno` is `EAGAIN`, the
entries filled and the stream behind. -/
structure RecvCall where
  num : ℕ
  ret : Int
  eagain : Bool
  entries : List UdpEntry
  left : List Byte

/-- The calls that return, one after the other. -/
def recvCalls : List ℕ → Sock → List RecvCall
  | [], _ => []
  | num :: nums, s =>
      match recvmmsgTcp s num true with
      | none => []
      | some (ret, entries, s) => ⟨num, ret, s.eagain, entries, s.input⟩ :: recvCalls nums s

/-- Each call returns the next messages, at least one and at most as many as asked for, or that
there is nothing yet; and leaves the stream in front of the frames of the others. -/
def Delivers : List Datagram → List RecvCall → Prop
  | _, [] => True
  | ds, c :: cs => ∃ got rest, ds = got ++ rest ∧ c.entries = got.map Datagram.entry ∧
      c.left = rest.flatMap Datagram.frame ∧
      ((c.ret = (got.length : ℕ) ∧ 0 < got.length ∧ got.length ≤ c.num) ∨
       (c.ret = -1 ∧ c.eagain = true ∧ got = [])) ∧
      Delivers rest cs

theorem recvCalls_delivers {nums : List ℕ} (hnums : ∀ n ∈ nums, 1 ≤ n) {ds : List Datagram}
    (hfit : ∀ d ∈ ds, d.Fits) {s : Sock} (hb : ∀ e ∈ s.events, e.benign = true)
    (hin : s.input = ds.flatMap Datagram.frame) :
    Delivers ds (recvCalls nums s) ∧
    ((ds = [] ∨ (ds.flatMap Datagram.frame).length < dataCount s.events) →
      s.events.length ≤ nums.length →
      (recvCalls nums s).flatMap RecvCall.entries = ds.map Datagram.entry) := by
  induction nums generalizing ds s with
  | nil =>
      refine ⟨trivial, ?_⟩
      intro hds hlen
      have hev : s.events = [] := List.length_eq_zero_iff.mp (Nat.le_zero.mp hlen)
      rcases hds with rfl | hds
      · rfl
      · rw [hev] at hds
        exact absurd hds (Nat.not_lt_zero _)
  | cons num nums ih =>
      have hpos : 0 < num := hnums num (by simp)
      have hcall : recvmmsgTcp s num true = recvmmsgLoop true num [] s := rfl
      unfold recvCalls
      rcases recvmmsgLoop_benign num hfit [] hb hin with
        ⟨ret, got, rest, s', rfl, hread, hr, hn, -, hlt, hret⟩ | ⟨hr, hcount⟩
      · have hrest : ∀ d ∈ rest, d.Fits := fun d h => hfit d (List.mem_append_right _ h)
        obtain ⟨hdel, hall⟩ := ih (fun n h => hnums n (List.mem_cons_of_mem _ h)) hrest
          hread.benign hread.input
        rw [hcall, hr]
        simp only [List.nil_append, List.length_map, List.flatMap_cons, List.map_append] at hret ⊢
        constructor
        · refine ⟨got, rest, rfl, rfl, hread.input, ?_, hdel⟩
          rcases hret with ⟨hret, hne⟩ | ⟨hret, -, hgot, heagain⟩
          · have := hne hpos
            refine .inl ⟨hret, ?_, hn⟩
            rw [List.length_pos_iff]
            rintro rfl
            exact this rfl
          · exact .inr ⟨hret, heagain, hgot⟩
        · intro hds hlen
          rw [hall ?_ ?_]
          · by_cases hr : rest = []
            · exact .inl hr
            · refine .inr ?_
              have hcount := hread.count hr
              rcases hds with hds | hds
              · exact absurd (List.append_eq_nil_iff.mp hds).2 hr
              · rw [List.flatMap_append, List.length_append] at hds
                omega
          · have := hlt hpos
            rw [List.length_cons] at hlen
            omega
      · rw [hcall, hr]
        refine ⟨trivial, ?_⟩
        intro hds _
        rcases hds with rfl | hds
        · rfl
        · omega

/-- The round trip: messages that are sent in any batches over a connection that stays up are
returned in order, each once, by reads of any batch sizes over any fragmentation of the stream;
after each call the stream is in front of a frame.  All of them are returned once the script has
let through more pieces than the stream has bytes. -/
theorem recv_returns_sent {batches : List (List Datagram)} (hfit : ∀ d ∈ batches.flatten, d.Fits)
    {sendEvents : List IoEvent} (hsend : ∀ e ∈ sendEvents, e.benign = true) {stream : List Byte}
    (hstream : sendBatches (batches.map (List.map Datagram.toMsg)) sendEvents = some stream)
    {events : List IoEvent} (hevents : ∀ e ∈ events, e.benign = true) (eagain : Bool)
    {nums : List ℕ} (hnums : ∀ n ∈ nums, 1 ≤ n) :
    Delivers batches.flatten (recvCalls nums ⟨stream, events, eagain⟩) ∧
    (stream.length < dataCount events → events.length ≤ nums.length →
      (recvCalls nums ⟨stream, events, eagain⟩).flatMap RecvCall.entries =
        batches.flatten.map Datagram.entry) := by
  have hin := sendBatches_benign hsend hstream
  obtain ⟨hdel, hall⟩ := recvCalls_delivers hnums hfit (s := ⟨stream, events, eagain⟩) hevents hin
  refine ⟨hdel, ?_⟩
  intro hcount hlen
  exact hall (.inr (by rwa [← hin])) hlen

theorem length_nil_le : ([] : List Byte).length ≤ 255 := by decide

/-- An empty payload to an IPv4 address, and one byte to the empty name. -/
def sampleDatagrams : List Datagram :=
  [⟨addrFromIpv4 0x0a000001 53, []⟩, ⟨.name [] length_nil_le 53, [7]⟩]

/-- The samples come back from a stream that delivers single bytes. -/
theorem sampleDatagrams_return :
    ∃ stream, sendBatches [sampleDatagrams.map Datagram.toMsg] [.data 99] = some stream ∧
      (recvCalls (List.replicate 19 2) ⟨stream, List.replicate 19 (.data 0), false⟩).flatMap
        RecvCall.entries = sampleDatagrams.map Datagram.entry := by
  obtain ⟨stream, hstream, hlen⟩ : ∃ stream,
      sendBatches ([sampleDatagrams].map (List.map Datagram.toMsg)) [.data 99] = some stream ∧
        stream.length < dataCount (List.replicate 19 (.data 0)) := ⟨_, rfl, by decide⟩
  refine ⟨stream, hstream, ?_⟩
  have hfit : ∀ d ∈ [sampleDatagrams].flatten, d.Fits := by
    simp [sampleDatagrams, Datagram.Fits, addrFromIpv4, Addr.len, udpBufSize]
  exact (recv_returns_sent hfit (by decide) hstream (by decide) false (by decide)).2 hlen (by decide)

end HevTunnel
