import HevTunnel.UDPReceive

/-! # The documented format of UDP relays

The README of the protocol library specifies the messages of the UDP-in-TCP mode.  Its first field
is the total length of the message, fields included; the code writes the length of the payload
there, and reads it so.

* `Datagram.relay` is a message in the documented format, and `readRelays` a receiver that follows
  the documentation alone.  The two fit each other (`readRelays_relay`).
* `documented_format_iff` compares them with the code: the streams of the one are never understood
  by the other, unless there is no message in them. -/

namespace HevTunnel

/-! ### The specification -/

namespace Datagram

/-- The message in the documented format: `MSGLEN`, `HDRLEN`, the address and the data. -/
def relay (d : Datagram) : List Byte :=
  let msglen := 3 + d.addr.len + d.buf.length
  UInt8.ofNat (msglen / 256) :: UInt8.ofNat msglen :: UInt8.ofNat (3 + d.addr.len) ::
    (d.addr.bytes ++ d.buf)

/-- The lengths of the header and of the message fit their fields. -/
def FitsRelay (d : Datagram) : Prop :=
  3 + d.addr.len ≤ 255 ∧ 3 + d.addr.len + d.buf.length ≤ 65535

end Datagram

/-- The documented message at the front of a stream, and what follows it.  The data start `HDRLEN`
and the next message `MSGLEN` bytes behind the start of this one. -/
def readRelay (stream : List Byte) : Option (Datagram × List Byte) :=
  match stream with
  | hi :: lo :: hl :: atype :: _ =>
      let msglen := hi.toNat * 256 + lo.toNat
      let hdrlen := hl.toNat
      if msglen < hdrlen ∨ stream.length < msglen then none
      else do
        let addr ← Addr.ofBytes atype ((stream.take hdrlen).drop 4)
        pure (⟨addr, (stream.take msglen).drop hdrlen⟩, stream.drop msglen)
  | _ => none

/-- The documented messages of a stream, `fuel` at most. -/
def readRelaysLoop : ℕ → List Byte → Option (List Datagram)
  | _, [] => some []
  | 0, _ :: _ => none
  | fuel + 1, b :: bs => do
      let (d, rest) ← readRelay (b :: bs)
      let ds ← readRelaysLoop fuel rest
      pure (d :: ds)

/-- A receiver that follows the documentation: the messages of a whole stream. -/
def readRelays (stream : List Byte) : Option (List Datagram) :=
  readRelaysLoop stream.length stream

/-! ### The specification agrees with itself -/

namespace Datagram

theorem length_relay (d : Datagram) : d.relay.length = 3 + d.addr.len + d.buf.length := by
  simp only [relay, List.length_cons, List.length_append, Addr.length_bytes]
  omega

theorem FitsRelay.hdrlen {d : Datagram} (h : d.FitsRelay) :
    (UInt8.ofNat (3 + d.addr.len)).toNat = 3 + d.addr.len := by
  rw [UInt8.toNat_ofNat']
  exact Nat.mod_eq_of_lt (by have := h.1; omega)

/-- The header of a documented message: all but the data. -/
theorem relay_eq (d : Datagram) : ∃ hdr, d.relay = hdr ++ d.buf ∧ hdr.length = 3 + d.addr.len ∧
    hdr = UInt8.ofNat ((3 + d.addr.len + d.buf.length) / 256) ::
      UInt8.ofNat (3 + d.addr.len + d.buf.length) :: UInt8.ofNat (3 + d.addr.len) ::
      d.addr.atype :: d.addr.data := by
  refine ⟨_, ?_, ?_, rfl⟩
  · simp [relay, d.addr.bytes_eq]
  · have hlen := d.addr.length_bytes
    rw [d.addr.bytes_eq, List.length_cons] at hlen
    simp only [List.length_cons]
    omega

end Datagram

theorem readRelay_relay {d : Datagram} (hd : d.FitsRelay) (rest : List Byte) :
    readRelay (d.relay ++ rest) = some (d, rest) := by
  obtain ⟨hdr, hrelay, hlen, hhdr⟩ := d.relay_eq
  have hmsg := d.length_relay
  have hmsglen : (UInt8.ofNat ((3 + d.addr.len + d.buf.length) / 256)).toNat * 256 +
      (UInt8.ofNat (3 + d.addr.len + d.buf.length)).toNat = d.relay.length := by
    rw [datlen_exact hd.2, hmsg]
  have hhead : (d.relay ++ rest).take (3 + d.addr.len) = hdr := by
    rw [hrelay, List.append_assoc, ← hlen, List.take_left]
  obtain ⟨tl, htl⟩ : ∃ tl, d.relay ++ rest =
      UInt8.ofNat ((3 + d.addr.len + d.buf.length) / 256) ::
      UInt8.ofNat (3 + d.addr.len + d.buf.length) :: UInt8.ofNat (3 + d.addr.len) ::
      d.addr.atype :: tl := ⟨d.addr.data ++ d.buf ++ rest, by simp [hrelay, hhdr]⟩
  rw [htl, readRelay, ← htl]
  simp only [hmsglen, hd.hdrlen]
  rw [if_neg (by rw [List.length_append]; omega), hhead, List.take_left, List.drop_left, hhdr]
  simp only [List.drop_succ_cons, List.drop_zero, Addr.ofBytes_data, Option.bind_eq_bind,
    Option.bind_some, Option.pure_def]
  rw [hrelay, ← hlen, List.drop_left]

theorem readRelaysLoop_relay {ds : List Datagram} (hfit : ∀ d ∈ ds, d.FitsRelay) {fuel : ℕ}
    (hfuel : (ds.flatMap Datagram.relay).length ≤ fuel) :
    readRelaysLoop fuel (ds.flatMap Datagram.relay) = some ds := by
  induction ds generalizing fuel with
  | nil => cases fuel <;> rfl
  | cons d ds ih =>
      have hlen := d.length_relay
      rw [List.flatMap_cons, List.length_append] at hfuel
      obtain ⟨n, rfl⟩ : ∃ n, fuel = n + 1 := ⟨fuel - 1, by omega⟩
      have hn : (ds.flatMap Datagram.relay).length ≤ n := by omega
      have hrest := ih (fun d' h' => hfit d' (List.mem_cons_of_mem _ h')) hn
      obtain ⟨b, bs, hcons⟩ : ∃ b bs, (d :: ds).flatMap Datagram.relay = b :: bs := ⟨_, _, rfl⟩
      have hread := readRelay_relay (hfit d (by simp)) (ds.flatMap Datagram.relay)
      rw [← List.flatMap_cons, hcons] at hread
      rw [hcons, readRelaysLoop, hread]
      simp [hrest]

/-- A receiver that follows the documentation reads back the messages of every documented stream. -/
theorem readRelays_relay {ds : List Datagram} (hfit : ∀ d ∈ ds, d.FitsRelay) :
    readRelays (ds.flatMap Datagram.relay) = some ds :=
  readRelaysLoop_relay hfit le_rfl

/-! ### What the code writes, read as documented -/

/-- A message that is read as documented from a frame of the code does not have the data that were
sent: the frame says that it ends before they do. -/
theorem readRelay_frame_ne {d d' : Datagram} (hd : d.FitsRelay) {rest rest' : List Byte}
    (h : readRelay (d.frame ++ rest) = some (d', rest')) : d' ≠ d := by
  rintro rfl
  obtain ⟨t, l, arest, haddr, -⟩ := d'.frame_eq
  have hbuf : d'.buf.length ≤ 65535 := by have := hd.2; omega
  simp only [Datagram.frame, frameIov, List.flatten_cons, List.flatten_nil, haddr, List.append_nil,
    List.cons_append, List.nil_append, readRelay, hd.hdrlen, datlen_exact hbuf] at h
  split_ifs at h with hlen
  simp only [Option.bind_eq_bind, Option.bind_eq_some_iff, Option.pure_def, Option.some.injEq,
    Prod.mk.injEq] at h
  obtain ⟨addr, -, hdata, -⟩ := h
  have hshort := congrArg (fun d : Datagram => d.buf.length) hdata
  simp only [List.length_drop, List.length_take] at hshort
  omega

/-- The receiver of the documentation recovers what `hev_socks5_udp_sendmmsg_tcp` wrote only if
there was nothing to send. -/
theorem readRelays_frames_iff {ds : List Datagram} (hfit : ∀ d ∈ ds, d.FitsRelay) :
    readRelays (ds.flatMap Datagram.frame) = some ds ↔ ds = [] := by
  constructor
  · intro h
    cases ds with
    | nil => rfl
    | cons d ds =>
        exfalso
        obtain ⟨b, bs, hcons⟩ : ∃ b bs, (d :: ds).flatMap Datagram.frame = b :: bs := ⟨_, _, rfl⟩
        rw [readRelays, hcons, List.length_cons, readRelaysLoop] at h
        simp only [Option.bind_eq_bind, Option.bind_eq_some_iff, Option.pure_def,
          Option.some.injEq, List.cons.injEq] at h
        obtain ⟨⟨d', rest⟩, hread, _, -, hd', -⟩ := h
        rw [← hcons, List.flatMap_cons] at hread
        exact readRelay_frame_ne (hfit d (by simp)) hread hd'
  · rintro rfl
    rfl

/-! ### What is documented, read by the code -/

/-- Each call on a documented stream returns the next messages, at least one and at most as many as
asked for, or that there is nothing yet; and leaves the stream in front of the others. -/
def DeliversRelays : List Datagram → List RecvCall → Prop
  | _, [] => True
  | ds, c :: cs => ∃ got rest, ds = got ++ rest ∧ c.entries = got.map Datagram.entry ∧
      c.left = rest.flatMap Datagram.relay ∧
      ((c.ret = (got.length : ℕ) ∧ 0 < got.length ∧ got.length ≤ c.num) ∨
       (c.ret = -1 ∧ c.eagain = true ∧ got = [])) ∧
      DeliversRelays rest cs

/-- An empty stream is delivered in either format. -/
theorem Delivers.nil_relays {cs : List RecvCall} (h : Delivers [] cs) : DeliversRelays [] cs := by
  induction cs with
  | nil => trivial
  | cons c cs ih =>
      obtain ⟨got, rest, hnil, hentries, hleft, hret, hrest⟩ := h
      obtain ⟨rfl, rfl⟩ := List.append_eq_nil_iff.mp hnil.symm
      exact ⟨[], [], rfl, hentries, hleft, hret, ih hrest⟩

/-- The first message that a call reads from a documented stream does not have the data of the
first message in it: the code takes the total length for theirs. -/
theorem recvmmsgTcp_relay_ne {d : Datagram} (hd : d.FitsRelay) {rest : List Byte} {s s' : Sock}
    (hin : s.input = d.relay ++ rest) {num : ℕ} {ret : Int} {e : UdpEntry} {es : List UdpEntry}
    (h : recvmmsgTcp s num true = some (ret, e :: es, s')) : e ≠ d.entry := by
  rintro rfl
  obtain ⟨es', fs, s₁, hes, hframes, hinput, -⟩ := recvmmsgLoop_cases h
  rw [List.nil_append] at hes
  rw [← hes] at hframes
  obtain ⟨f, fs, hf, -, rfl⟩ := List.forall₂_cons_right_iff.mp hframes
  obtain ⟨hi, lo, hl, t, l, body, rfl, -, hbody, -, hbuf⟩ := hf
  simp only [hinput, List.flatten_cons, List.cons_append, Datagram.relay, List.cons.injEq] at hin
  obtain ⟨rfl, rfl, rfl, -⟩ := hin
  rw [datlen_exact hd.2] at hbody
  have hlen := congrArg List.length hbuf
  rw [List.length_drop, hbody] at hlen
  simp only [Datagram.entry] at hlen
  omega

/-- So no call returns a message of a documented stream. -/
theorem DeliversRelays.entries_eq_nil {d : Datagram} {ds : List Datagram} (hd : d.FitsRelay)
    {nums : List ℕ} {s : Sock} (hin : s.input = (d :: ds).flatMap Datagram.relay)
    (h : DeliversRelays (d :: ds) (recvCalls nums s)) :
    (recvCalls nums s).flatMap RecvCall.entries = [] := by
  induction nums generalizing s with
  | nil => rfl
  | cons num nums ih =>
      unfold recvCalls at h ⊢
      cases hcall : recvmmsgTcp s num true with
      | none => rfl
      | some r =>
          obtain ⟨ret, entries, s'⟩ := r
          rw [hcall] at h
          obtain ⟨got, rest, hds, hentries, hleft, -, hrest⟩ := h
          cases got with
          | cons g got =>
              -- the call claims to have read the first message
              obtain ⟨rfl, -⟩ := List.cons.inj hds
              simp only [List.map_cons] at hentries
              rw [hentries] at hcall
              exact absurd rfl (recvmmsgTcp_relay_ne hd hin hcall)
          | nil =>
              rw [List.nil_append] at hds
              subst hds
              simp only [List.map_nil] at hentries
              simp only [List.flatMap_cons, hentries, List.nil_append]
              exact ih hleft hrest

/-- The code recovers the messages of the documented stream of `ds`, over every connection that
stays up and for all batch sizes, once enough of the stream has come through. -/
def RecoversRelays (ds : List Datagram) : Prop :=
  ∀ (events : List IoEvent) (eagain : Bool) (nums : List ℕ), (∀ e ∈ events, e.benign = true) →
    (∀ n ∈ nums, 1 ≤ n) →
    DeliversRelays ds (recvCalls nums ⟨ds.flatMap Datagram.relay, events, eagain⟩) ∧
    ((ds.flatMap Datagram.relay).length < dataCount events → events.length ≤ nums.length →
      (recvCalls nums ⟨ds.flatMap Datagram.relay, events, eagain⟩).flatMap RecvCall.entries =
        ds.map Datagram.entry)

theorem recoversRelays_nil : RecoversRelays [] := by
  intro events eagain nums hevents hnums
  have hfit : ∀ d ∈ ([] : List Datagram), d.Fits := by simp
  obtain ⟨hdel, hall⟩ := recvCalls_delivers hnums hfit (s := ⟨[], events, eagain⟩) hevents rfl
  exact ⟨hdel.nil_relays, fun _ hlen => hall (.inl rfl) hlen⟩

theorem dataCount_replicate (n k : ℕ) : dataCount (List.replicate n (.data k)) = n := by
  induction n with
  | zero => rfl
  | succ n ih => rw [List.replicate_succ, dataCount_data, ih]

theorem not_recoversRelays_cons {d : Datagram} (hd : d.FitsRelay) (ds : List Datagram) :
    ¬ RecoversRelays (d :: ds) := by
  intro h
  -- a stream that comes byte by byte
  obtain ⟨n, hn⟩ : ∃ n, ((d :: ds).flatMap Datagram.relay).length < n := ⟨_, Nat.lt_succ_self _⟩
  obtain ⟨hdel, hall⟩ := h (List.replicate n (.data 0)) false (List.replicate n 1)
    (by simp [IoEvent.benign]) (by simp)
  have hnone := hdel.entries_eq_nil hd rfl
  rw [hall (by rwa [dataCount_replicate]) (by simp)] at hnone
  cases hnone

/-! ### The two formats -/

/-- A receiver that follows the documentation recovers the messages that the code has sent, and the
code recovers the messages of the documented stream, exactly if there are none. -/
theorem documented_format_iff {batches : List (List Datagram)}
    (hfit : ∀ d ∈ batches.flatten, d.FitsRelay) {sendEvents : List IoEvent}
    (hsend : ∀ e ∈ sendEvents, e.benign = true) {stream : List Byte}
    (hstream : sendBatches (batches.map (List.map Datagram.toMsg)) sendEvents = some stream) :
    (readRelays stream = some batches.flatten ↔ batches.flatten = []) ∧
    (RecoversRelays batches.flatten ↔ batches.flatten = []) := by
  constructor
  · rw [sendBatches_benign hsend hstream]
    exact readRelays_frames_iff hfit
  · constructor
    · intro h
      cases hds : batches.flatten with
      | nil => rfl
      | cons d ds =>
          rw [hds] at h
          exact absurd h (not_recoversRelays_cons (hfit d (by simp [hds])) ds)
    · intro h
      rw [h]
      exact recoversRelays_nil

/-- One byte to an IPv4 address. -/
def sampleRelay : Datagram := ⟨addrFromIpv4 0x0a000001 53, [7]⟩

theorem documented_format_sample :
    ∃ stream, sendBatches [[sampleRelay.toMsg]] [.data 99] = some stream ∧
      readRelays stream ≠ some [sampleRelay] ∧ ¬ RecoversRelays [sampleRelay] := by
  obtain ⟨stream, hstream⟩ : ∃ stream,
      sendBatches ([[sampleRelay]].map (List.map Datagram.toMsg)) [.data 99] = some stream :=
    ⟨_, rfl⟩
  have hfit : ∀ d ∈ [[sampleRelay]].flatten, d.FitsRelay := by
    simp [sampleRelay, Datagram.FitsRelay, addrFromIpv4, Addr.len]
  obtain ⟨hread, hrecover⟩ := documented_format_iff hfit (by decide) hstream
  refine ⟨stream, hstream, ?_, ?_⟩
  · intro h
    exact absurd (hread.mp h) (by simp)
  · intro h
    exact absurd (hrecover.mp h) (by simp)

/-- The frame of that message says that it is one byte long, shorter than its header; and of its
documented form, eleven bytes, the code waits for eleven bytes of data. -/
theorem documented_format_fails :
    (∃ stream, sendBatches [[sampleRelay.toMsg]] [.data 99] = some stream ∧
      readRelays stream = none) ∧
    recvmmsgTcp ⟨sampleRelay.relay, List.replicate 12 (.data 0), false⟩ 1 true = none := by
  exact ⟨⟨_, rfl, rfl⟩, rfl⟩

end HevTunnel
