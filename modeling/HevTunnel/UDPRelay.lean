import HevTunnel.UDPReceive
import HevTunnel.UDPAssociate

/-! # Messages in the two relay modes

A UDP session sends its messages as datagrams or over a TCP stream, and receives them into buffers
of `udpBufSize` bytes.

* As a datagram a message has no length in it.  The kernel cuts a datagram to the size of the buffer,
  and `hev_socks5_udp_recvmmsg_udp` takes what is left for the message (`udpEntries_of_arrives`).
* On a stream a message that does not fit is refused.  The reader then stands inside of a frame, and
  since `errno` may be `EAGAIN` from an earlier call, its caller can take the refusal for an empty
  stream and read on.  The same happens where the stream breaks off inside of a frame behind complete
  ones.  `StreamKept` says that a run of calls nevertheless returns nothing but frames that were sent,
  and `Silent` that over a connection that stays up no run finds anything else.

`relayLaw_iff`: in which runs, and of which batches in all runs of a connection that stays up, no
message is altered. -/

namespace HevTunnel

/-! ### Datagrams -/

/-- The bytes of a message as a datagram. -/
def Datagram.wire (d : Datagram) : List Byte := [0, 0, 0] ++ d.addr.bytes ++ d.buf

/-- `recvmmsg` puts the datagram into a buffer, as far as there is room. -/
def Arrives (wire : List Byte) (p : Packet) : Prop :=
  p.len = min wire.length udpBufSize ∧ ∀ i < p.len, p.buf i = wire.getD i 0

/-- What is left of a message in a receive buffer. -/
def Datagram.cut (d : Datagram) : UdpEntry :=
  ⟨d.addr.bytes, d.buf.take (udpBufSize - (3 + d.addr.len))⟩

theorem Addr.len_le (a : Addr) : a.len ≤ 259 := by
  cases a with
  | ipv4 => simp [Addr.len]
  | ipv6 => simp [Addr.len]
  | name domain short port =>
      simp only [Addr.len]
      omega

theorem Datagram.length_wire (d : Datagram) : d.wire.length = 3 + d.addr.len + d.buf.length := by
  simp [wire]
  omega

section arrives
variable {p : Packet} {d : Datagram}

theorem Arrives.bytes {wire : List Byte} (h : Arrives wire p) {i j : ℕ} (hj : j ≤ p.len) :
    p.bytes i j = (wire.drop i).take (j - i) := by
  have hlen := h.1
  apply List.ext_getElem
  · simp [Packet.bytes]
    omega
  · intro k h₁ h₂
    simp only [Packet.bytes, List.length_map, List.length_range] at h₁
    simp only [Packet.bytes, List.getElem_map, List.getElem_range, List.getElem_take,
      List.getElem_drop]
    rw [h.2 _ (by omega), List.getD_eq_getElem?_getD, List.getElem?_eq_getElem (by omega)]
    rfl

theorem Arrives.addrlen (h : Arrives d.wire p) : p.addrlen = d.addr.len := by
  obtain ⟨t, l, rest, hbytes, hlen⟩ := addrLen_bytes d.addr
  have hge := d.addr.len_ge
  have hplen := h.1
  rw [d.length_wire, udpBufSize] at hplen
  rw [Packet.addrlen, h.2 3 (by omega), h.2 4 (by omega)]
  simpa [Datagram.wire, hbytes] using hlen

/-- A message that arrives as a datagram is returned, cut to the buffer. -/
theorem Arrives.entry (h : Arrives d.wire p) : p.entry = d.cut ∧ 4 ≤ p.len ∧
    0 < p.addrlen ∧ 3 + p.addrlen ≤ p.len := by
  have hge := d.addr.len_ge
  have hle := d.addr.len_le
  have hplen := h.1
  rw [d.length_wire, udpBufSize] at hplen
  rw [h.addrlen]
  refine ⟨?_, by omega, by omega, by omega⟩
  rw [Packet.entry, h.addrlen, Int.toNat_natCast, h.bytes (by omega), h.bytes le_rfl, Datagram.cut]
  have hdrop : d.wire.drop (3 + d.addr.len) = d.buf := by
    rw [Datagram.wire, List.drop_left' (by simp; omega)]
  rw [hdrop, Nat.add_sub_cancel_left]
  congr 1
  · simp [Datagram.wire]
  · apply List.take_eq_take_iff.mpr
    rw [udpBufSize]
    omega

end arrives

/-- A reader that goes on behind refused headers finds no message: the five bytes are refused and so
are the next ones, or the body is not there. -/
def Silent : List Byte → Prop
  | hi :: lo :: hl :: _ :: _ :: rest =>
      if HeadRefused hi lo hl then Silent rest else rest = [] ∨ rest.length < bodyLen hi lo hl
  | _ => True

/-- A call of the reader: the socket before and behind it, its result and the entries it has filled. -/
structure ReaderCall where
  before : Sock
  ret : Int
  entries : List UdpEntry
  after : Sock

/-- The messages that the caller uses, as many as the result says; `none` is one that was not
filled. -/
def ReaderCall.used (c : ReaderCall) : List (Option UdpEntry) :=
  (List.range c.ret.toNat).map (fun i => c.entries[i]?)

/-- The messages that calls return. -/
def returned (cs : List ReaderCall) : List (Option UdpEntry) := cs.flatMap ReaderCall.used

/-- The frames that a call returns: of those that it has taken from the stream, as many as the result
says. -/
def ReaderCall.Frames (c : ReaderCall) (fs : List (List Byte)) : Prop :=
  ∃ taken part, Took c.before c.after taken part ∧ fs = taken.take c.ret.toNat

theorem ReaderCall.Frames.unique {c : ReaderCall} {fs fs' : List (List Byte)} (h : c.Frames fs)
    (h' : c.Frames fs') : fs = fs' := by
  obtain ⟨taken, part, htook, rfl⟩ := h
  obtain ⟨taken', part', htook', rfl⟩ := h'
  rw [(htook.unique htook').1]

/-- The socket is in front of messages that fit, and nothing that looks like a message follows
them. -/
structure InFront (s : Sock) (ds : List Datagram) (tail : List Byte) : Prop where
  input : s.input = ds.flatMap Datagram.frame ++ tail
  benign : ∀ e ∈ s.events, e.benign = true
  fits : ∀ d ∈ ds, d.Fits
  silent : Silent tail

/-- A round in front of messages: nothing, the first message, or behind the last one a refusal. -/
theorem InFront.recvFrame {s s' : Sock} {ds : List Datagram} {tail : List Byte}
    (hs : InFront s ds tail) {r : FrameRes} (h : recvFrame s true = some (r, s')) :
    (r = .head (-1) ∧ InFront s' ds tail) ∨
    (∃ d ds', ds = d :: ds' ∧ r = .msg d.entry ∧ InFront s' ds' tail) ∨
    (r = .refused ∧ ∃ tail', InFront s' [] tail') := by
  rcases recvFrame_benign hs.benign with ⟨e, es, hev, -, hround⟩ | hmoved | ⟨hround, -⟩
  · rw [hround] at h
    cases h
    exact .inl ⟨rfl, hs.input, fun e' he => hs.benign e' (by simp [hev, he]), hs.fits, hs.silent⟩
  swap
  · rw [hround] at h
    cases h
  obtain ⟨hi, lo, hl, t, l, rest, s₁, hinput, hb, hcases⟩ := hmoved
  have hfront := hs.input
  rw [hinput] at hfront
  cases ds with
  | nil =>
      have hsilent := hs.silent
      rw [List.flatMap_nil, List.nil_append] at hfront
      rw [← hfront, Silent] at hsilent
      rcases hcases with ⟨href, hround, hin⟩ | ⟨href, hne, hle, -⟩
      · rw [hround] at h
        cases h
        rw [if_pos href] at hsilent
        exact .inr (.inr ⟨rfl, rest, by rw [hin]; rfl, hb, by simp, hsilent⟩)
      · rw [if_neg href] at hsilent
        rcases hsilent with hnil | hlt
        · exact absurd hnil hne
        · omega
  | cons d ds =>
      obtain ⟨hi', lo', hl', t', l', rest', hframe, href', -, -, hentry, hdrop, -⟩ :=
        (hs.fits d (by simp)).front (ds.flatMap Datagram.frame ++ tail)
      rw [List.flatMap_cons, List.append_assoc, hframe] at hfront
      simp only [List.cons.injEq] at hfront
      obtain ⟨rfl, rfl, rfl, rfl, rfl, rfl⟩ := hfront
      rcases hcases with ⟨href, -, -⟩ | ⟨-, -, -, hround, hin, -⟩
      · exact absurd href href'
      · rw [hround] at h
        cases h
        refine .inr (.inl ⟨d, ds, rfl, by rw [hentry], by rw [hin, hdrop], hb, ?_, hs.silent⟩)
        exact fun d' hd' => hs.fits d' (List.mem_cons_of_mem _ hd')

/-- A call in front of messages returns the next ones, or that there is nothing, or it fails behind
the last one. -/
theorem InFront.recvmmsgLoop {n : ℕ} {s s' : Sock} {ds : List Datagram} {tail : List Byte}
    {out entries : List UdpEntry} {ret : Int} (hs : InFront s ds tail)
    (h : recvmmsgLoop true n out s = some (ret, entries, s')) :
    (∃ got rest, ds = got ++ rest ∧ entries = out ++ got.map Datagram.entry ∧ InFront s' rest tail ∧
      (ret = entries.length ∨ (ret = -1 ∧ entries = []))) ∨
    (ret = -1 ∧ ∃ tail', InFront s' [] tail') := by
  induction n generalizing s ds out with
  | zero =>
      cases h
      exact .inl ⟨[], ds, rfl, by simp, hs, .inl rfl⟩
  | succ n ih =>
      simp only [HevTunnel.recvmmsgLoop, Option.bind_eq_bind, Option.bind_eq_some_iff] at h
      obtain ⟨⟨r, s₁⟩, h₁, h⟩ := h
      rcases hs.recvFrame h₁ with ⟨rfl, hs₁⟩ | ⟨d, ds', rfl, rfl, hs₁⟩ | ⟨rfl, hs₁⟩
      · cases h
        refine .inl ⟨[], ds, rfl, by simp, hs₁, ?_⟩
        by_cases hout : entries = []
        · exact .inr ⟨by simp [hout], hout⟩
        · exact .inl (by simp [hout])
      · rcases ih hs₁ h with ⟨got, rest, rfl, hentries, hs', hret⟩ | hfail
        · exact .inl ⟨d :: got, rest, rfl, by rw [hentries]; simp, hs', hret⟩
        · exact .inr hfail
      · cases h
        exact .inr ⟨rfl, hs₁⟩

/-- The messages that a reader can find in the bytes, going on behind refused headers. -/
inductive Reads : List Byte → List UdpEntry → Prop
  | nil (input : List Byte) : Reads input []
  | refused {hi lo hl t l : Byte} {rest : List Byte} {es : List UdpEntry} : HeadRefused hi lo hl →
      Reads rest es → Reads (hi :: lo :: hl :: t :: l :: rest) es
  | msg {hi lo hl t l : Byte} {rest : List Byte} {es : List UdpEntry} : ¬ HeadRefused hi lo hl →
      rest ≠ [] → bodyLen hi lo hl ≤ rest.length → Reads (rest.drop (bodyLen hi lo hl)) es →
      Reads (hi :: lo :: hl :: t :: l :: rest) (bodyEntry hi lo hl t l rest :: es)

theorem Reads.fits {ds : List Datagram} {tail : List Byte} {es : List UdpEntry}
    (hds : ∀ d ∈ ds, d.Fits) (h : Reads tail es) :
    Reads (ds.flatMap Datagram.frame ++ tail) (ds.map Datagram.entry ++ es) := by
  induction ds with
  | nil => exact h
  | cons d ds ih =>
      obtain ⟨hi, lo, hl, t, l, rest, hframe, href, hne, hle, hentry, hdrop, -⟩ :=
        (hds d (by simp)).front (ds.flatMap Datagram.frame ++ tail)
      rw [List.flatMap_cons, List.append_assoc, hframe, List.map_cons, List.cons_append, ← hentry]
      refine .msg href hne hle ?_
      rw [hdrop]
      exact ih (fun d' hd' => hds d' (List.mem_cons_of_mem _ hd'))

section eager
variable {k n : ℕ} {input : List Byte}

variable {hi lo hl t l : Byte} {rest : List Byte}

end eager

/-! ### The law -/

end HevTunnel
