import HevTunnel.SessionUDP
import HevTunnel.UDPRelay

/-! # Frames that are written and frames that are accepted

`hev_socks5_udp_sendmmsg_tcp` stores the length of the payload in two bytes and the length of the
header in one, whatever they are.  `hev_socks5_udp_recvmmsg_tcp` tests both lengths for its buffer,
but it does not look at the address that the header is said to hold.

* `fieldsExact_iff`: the fields hold the lengths, and nothing else is written, exactly if every
  message of the batch fits the fields or one of them has an address of unknown type.
* `acceptsEncoded_iff`: a call returns what the encoder can have written, exactly if the address of
  every frame that is read announces the length that the header has for it, and the stream is not cut
  short. -/

namespace HevTunnel

/-! ### Writing -/

/-- The lengths of the message fit their fields. -/
def UdpMsg.FitsFields (m : UdpMsg) : Prop :=
  ∀ addr, m.addr = some addr → 3 + addr.len ≤ 255 ∧ m.buf.length ≤ 65535

/-- A frame of the message with the exact lengths in its header. -/
def ExactFrame (m : UdpMsg) (f : List Byte) : Prop :=
  ∃ addr hi lo hl, m.addr = some addr ∧ f = hi :: lo :: hl :: (addr.bytes ++ m.buf) ∧
    hl.toNat = 3 + addr.len ∧ hi.toNat * 256 + lo.toNat = m.buf.length

/-- What is written of a batch are frames with exact lengths, and of a batch with a message that
does not fit nothing is written. -/
structure FieldsExact (msgv : List UdpMsg) : Prop where
  written : ∀ events res out es, sendmmsgTcp msgv events = some (res, out, es) → out ≠ [] →
    ∃ fs, List.Forall₂ ExactFrame msgv fs ∧ out <+: fs.flatten
  rejected : (∃ m ∈ msgv, ¬ m.FitsFields) → ∀ events, sendmmsgTcp msgv events = some (-1, [], events)

theorem batchIov_eq_none_iff (msgv : List UdpMsg) :
    batchIov msgv = none ↔ ∃ m ∈ msgv, m.addr = none := by
  induction msgv with
  | nil => simp [batchIov]
  | cons m ms ih =>
      rw [batchIov]
      cases haddr : m.addr with
      | none => simp [haddr]
      | some addr =>
          cases hiov : batchIov ms with
          | none => simpa [hiov, haddr] using ih
          | some iov => simpa [hiov, haddr] using ih

theorem sendmmsgTcp_rejected {msgv : List UdpMsg} (h : ∃ m ∈ msgv, m.addr = none)
    (events : List IoEvent) : sendmmsgTcp msgv events = some (-1, [], events) := by
  rw [sendmmsgTcp, (batchIov_eq_none_iff msgv).mpr h]

/-- A socket that takes everything at once. -/
theorem sendmsg_eager {iov : List (List Byte)} {n : ℕ} (hne : iov.flatten ≠ [])
    (hn : iov.flatten.length ≤ n + 1) (es : List IoEvent) :
    sendmsg iov (.data n :: es) = some ((iov.flatten.length : Int), iov.flatten, es) := by
  rw [sendmsg, sendmsgLoop]
  simp only [List.take_of_length_le hn, List.nil_append]
  rw [if_neg hne, if_neg (lt_irrefl _)]

theorem sendmmsgTcp_eager {msgv : List UdpMsg} {iov : List (List Byte)}
    (hiov : batchIov msgv = some iov) {n : ℕ} (hne : iov.flatten ≠ [])
    (hn : iov.flatten.length ≤ n + 1) (es : List IoEvent) :
    sendmmsgTcp msgv (.data n :: es) = some ((msgv.length : Int), iov.flatten, es) := by
  have hpos := List.length_pos_iff.mpr hne
  simp only [sendmmsgTcp, hiov, sendmsg_eager hne hn, Option.bind_eq_bind, Option.bind_some,
    Option.pure_def]
  rw [if_neg (by omega)]

theorem exactFrame_of_fits {m : UdpMsg} {addr : Addr} (haddr : m.addr = some addr)
    (h : m.FitsFields) : ExactFrame m (frameIov addr m.buf).flatten := by
  obtain ⟨hhdr, hdat⟩ := h addr haddr
  refine ⟨addr, _, _, UInt8.ofNat (3 + addr.len), haddr, ?_, ?_, datlen_exact hdat⟩
  · simp only [frameIov, List.flatten_cons, List.flatten_nil, List.append_nil, List.cons_append,
      List.nil_append]
  · rw [UInt8.toNat_ofNat']
    omega

theorem exists_exactFrames {msgv : List UdpMsg} {iov : List (List Byte)}
    (hiov : batchIov msgv = some iov) (h : ∀ m ∈ msgv, m.FitsFields) :
    ∃ fs, List.Forall₂ ExactFrame msgv fs ∧ fs.flatten = iov.flatten := by
  induction msgv generalizing iov with
  | nil =>
      cases hiov
      exact ⟨[], .nil, rfl⟩
  | cons m ms ih =>
      rw [List.forall_mem_cons] at h
      simp only [batchIov, Option.bind_eq_bind, Option.bind_eq_some_iff, Option.pure_def,
        Option.some.injEq] at hiov
      obtain ⟨addr, haddr, iov', hiov', rfl⟩ := hiov
      obtain ⟨fs, hfs, hflat⟩ := ih hiov' h.2
      refine ⟨_, .cons (exactFrame_of_fits haddr h.1) hfs, ?_⟩
      rw [List.flatten_cons, List.flatten_append, hflat]

/-- A frame is not empty, so a batch that is not empty is written. -/
theorem flatten_batchIov_ne_nil {m : UdpMsg} {ms : List UdpMsg} {iov : List (List Byte)}
    (hiov : batchIov (m :: ms) = some iov) : iov.flatten ≠ [] := by
  simp only [batchIov, Option.bind_eq_bind, Option.bind_eq_some_iff, Option.pure_def,
    Option.some.injEq] at hiov
  obtain ⟨addr, -, iov', -, rfl⟩ := hiov
  simp [frameIov]

/-- The batches whose fields are exact: those with an address of unknown type, which are rejected,
and those whose messages all fit the fields. -/
theorem fieldsExact_iff (msgv : List UdpMsg) :
    FieldsExact msgv ↔ (∃ m ∈ msgv, m.addr = none) ∨ ∀ m ∈ msgv, m.FitsFields := by
  constructor
  · intro h
    by_cases hnone : ∃ m ∈ msgv, m.addr = none
    · exact .inl hnone
    · refine .inr ?_
      by_contra hfits
      push Not at hfits
      cases msgv with
      | nil => simp at hfits
      | cons m ms =>
          obtain ⟨iov, hiov⟩ : ∃ iov, batchIov (m :: ms) = some iov := by
            rw [← Option.ne_none_iff_exists', ne_eq, batchIov_eq_none_iff]
            exact hnone
          -- a socket that takes the whole batch shows that it is not rejected
          have hsend := sendmmsgTcp_eager hiov (flatten_batchIov_ne_nil hiov)
            (Nat.le_succ iov.flatten.length) []
          rw [h.rejected hfits] at hsend
          cases hsend
  · rintro (hnone | hfits)
    · refine ⟨?_, fun _ events => sendmmsgTcp_rejected hnone events⟩
      intro events res out es hsend hne
      rw [sendmmsgTcp_rejected hnone] at hsend
      cases hsend
      exact absurd rfl hne
    · refine ⟨?_, ?_⟩
      · intro events res out es hsend hne
        rcases SessionUdp.sendmmsgTcp_cases hsend with ⟨-, hout, -⟩ |
          ⟨-, -, iov, ret, rest, hiov, -, -, -, hsplit⟩
        · exact absurd hout hne
        · obtain ⟨fs, hfs, hflat⟩ := exists_exactFrames hiov hfits
          exact ⟨fs, hfs, by rw [hflat, hsplit]; exact List.prefix_append _ _⟩
      · rintro ⟨m, hm, hnot⟩
        exact absurd (hfits m hm) hnot

/-- A message for a name of 249 bytes. -/
def longNameMsg : UdpMsg :=
  ⟨some (.name (List.replicate 249 97) (by rw [List.length_replicate]; decide) 53), [7]⟩

/-- Its header has 256 bytes, which is written as 0. -/
theorem longNameMsg_wraps :
    sendmmsgTcp [longNameMsg] [.data 300] =
      some (1, 0 :: 1 :: 0 :: 3 :: 249 :: (List.replicate 249 97 ++ [0, 53, 7]), []) ∧
    ¬ FieldsExact [longNameMsg] := by
  have hsend : sendmmsgTcp [longNameMsg] [.data 300] =
      some (1, 0 :: 1 :: 0 :: 3 :: 249 :: (List.replicate 249 97 ++ [0, 53, 7]), []) := by
    decide +kernel
  refine ⟨hsend, fun h => ?_⟩
  have hunfit : ¬ longNameMsg.FitsFields := fun hfits =>
    absurd (hfits _ rfl).1 (by decide +kernel)
  rw [h.rejected ⟨longNameMsg, List.mem_singleton_self _, hunfit⟩] at hsend
  cases hsend

/-! ### Reading -/

/-- The memory from the address of an entry on: the address and the payload lie one behind the other
in the buffer, and behind them what was there before. -/
def UdpEntry.memory (e : UdpEntry) (stale : List Byte) : List Byte := e.addr ++ e.buf ++ stale

/-- `hev_socks5_addr_len` of the address of an entry. -/
def UdpEntry.addrlen (e : UdpEntry) (stale : List Byte) : Int :=
  addrLen ((e.memory stale).getD 0 0) ((e.memory stale).getD 1 0)

/-- The entry as a message to send: its address is as long as its first bytes say. -/
def UdpEntry.toMsg (e : UdpEntry) (stale : List Byte) : UdpMsg :=
  ⟨Addr.ofBytes ((e.memory stale).getD 0 0)
    (((e.memory stale).take (e.addrlen stale).toNat).drop 1), e.buf⟩

/-- The message is one that the encoder writes as the frame `f`: its address is of a known type, has
the length of the address in the frame and consists of its bytes, and the message is written as `f`
again. -/
structure Recoded (f : List Byte) (e : UdpEntry) (stale : List Byte) : Prop where
  known : 0 < e.addrlen stale
  length : e.addrlen stale = ((f.getD 2 0).toNat : Int) - 3
  header : (e.memory stale).take (e.addrlen stale).toNat = (f.drop 3).take ((f.getD 2 0).toNat - 3)
  again : ∀ n, f.length ≤ n + 1 → sendmmsgTcp [e.toMsg stale] [.data n] = some (1, f, [])

/-- A call returns no more messages than it has read, and unless it fails, the frames that it has
taken from the stream are what the encoder writes for their messages. -/
structure AcceptsEncoded (s s' : Sock) (ret : Int) (entries : List UdpEntry) : Prop where
  written : ret ≤ entries.length
  recoded : 0 < ret → ∃ fs part, Took s s' fs part ∧
    List.Forall₂ (fun f e => ∀ stale, Recoded f e stale) fs entries

/-- The first bytes of the address in a frame announce the length that the header has for it. -/
def AddrMatches (f : List Byte) : Prop :=
  addrLen (f.getD 3 0) (f.getD 4 0) = ((f.getD 2 0).toNat : Int) - 3

section frame
variable {f : List Byte} {e : UdpEntry} (stale : List Byte)

/-- The address in the memory of an entry is read from the frame. -/
theorem IsFrame.addrlen (h : IsFrame f e) :
    e.addrlen stale = addrLen (f.getD 3 0) (f.getD 4 0) := by
  obtain ⟨hi, lo, hl, t, l, body, rfl, -, -, haddr, -⟩ := h
  simp [UdpEntry.addrlen, UdpEntry.memory, haddr]

/-- A frame whose address matches is what the encoder writes for its message. -/
theorem IsFrame.recoded (h : IsFrame f e) (hm : AddrMatches f) : Recoded f e stale := by
  have hlen := (h.addrlen stale).trans hm
  obtain ⟨hi, lo, hl, t, l, body, rfl, hhead, hbody, haddr, hbuf⟩ := h
  have hhl : 5 ≤ hl.toNat := not_lt.mp fun hlt => hhead (.inl hlt)
  simp only [List.getD_cons_zero, List.getD_cons_succ] at hlen
  have htake : (body.take (hl.toNat - 5)).length = hl.toNat - 5 := by
    rw [List.length_take]
    omega
  have hn : (e.addrlen stale).toNat = hl.toNat - 3 := by omega
  have hmem : (e.memory stale).take (e.addrlen stale).toNat = t :: l :: body.take (hl.toNat - 5) := by
    rw [UdpEntry.memory, List.append_assoc, haddr, hn]
    exact List.take_left' (by simp only [List.length_cons, htake]; omega)
  refine ⟨by omega, by simpa using hlen, ?_, ?_⟩
  · rw [hmem]
    have : hl.toNat - 3 = hl.toNat - 5 + 1 + 1 := by omega
    simp [this]
  · -- the address is read from its own bytes
    have hannounced : addrLen t l = ((body.take (hl.toNat - 5)).length + 2 : ℕ) := by
      rw [AddrMatches] at hm
      simp only [List.getD_cons_zero, List.getD_cons_succ] at hm
      rw [hm, htake]
      omega
    obtain ⟨a, ha, hbytes⟩ := Addr.ofBytes_of_addrLen hannounced
    have halen : a.len = hl.toNat - 3 := by
      rw [← a.length_bytes, hbytes]
      simp only [List.length_cons, htake]
      omega
    have hmsg : e.toMsg stale = ⟨some a, e.buf⟩ := by
      rw [UdpEntry.toMsg, hmem]
      simp [UdpEntry.memory, haddr, ha]
    have hbuflen : e.buf.length = hi.toNat * 256 + lo.toNat := by
      rw [hbuf, List.length_drop]
      omega
    have hframe : (frameIov a e.buf).flatten = hi :: lo :: hl :: t :: l :: body := by
      have hhdr : 3 + (hl.toNat - 3) = hl.toNat := by omega
      have hjoin : body.take (hl.toNat - 5) ++ e.buf = body := by
        rw [hbuf, List.take_append_drop]
      simp only [frameIov, List.flatten_cons, List.flatten_nil, List.append_nil, List.cons_append,
        List.nil_append, hbuflen, (ofNat_hi_lo hi lo).1, (ofNat_hi_lo hi lo).2, halen, hhdr,
        UInt8.ofNat_toNat, hbytes, hjoin]
    intro n hlt
    have hiov : batchIov [e.toMsg stale] = some (frameIov a e.buf) := by
      rw [hmsg]
      simp [batchIov]
    rw [sendmmsgTcp_eager hiov (by rw [hframe]; simp) (by rw [hframe]; exact hlt), hframe]
    rfl

end frame

/-- A frame is what the encoder writes for its message exactly if its address matches. -/
theorem IsFrame.recoded_iff {f : List Byte} {e : UdpEntry} (h : IsFrame f e) :
    (∀ stale, Recoded f e stale) ↔ AddrMatches f := by
  constructor
  · intro hrec
    rw [AddrMatches, ← h.addrlen []]
    exact (hrec []).length
  · exact fun hm stale => h.recoded stale hm

theorem forall₂_recoded_iff {fs : List (List Byte)} {entries : List UdpEntry}
    (h : List.Forall₂ IsFrame fs entries) :
    List.Forall₂ (fun f e => ∀ stale, Recoded f e stale) fs entries ↔ ∀ f ∈ fs, AddrMatches f := by
  induction h with
  | nil => simp
  | cons hf _ ih => rw [List.forall₂_cons, ih, hf.recoded_iff, List.forall_mem_cons]

/-- Of every call that returns messages: it accepts only what the encoder can produce, exactly if the
stream is not cut short, and in every frame that was taken from it the address has the length that the
header says. -/
theorem acceptsEncoded_iff {s s' : Sock} {num : ℕ} {nonblock : Bool} {ret : Int}
    {entries : List UdpEntry} (h : recvmmsgTcp s num nonblock = some (ret, entries, s'))
    (hret : 0 < ret) :
    AcceptsEncoded s s' ret entries ↔
      ¬ CutShort s s' ∧ ∀ fs part, Took s s' fs part → ∀ f ∈ fs, AddrMatches f := by
  obtain ⟨fs, fs', part, htook, hframes, hnone⟩ := recvmmsgTcp_took h
  rw [hnone hret, List.append_nil] at htook
  constructor
  · intro hacc
    refine ⟨(ret_le_length_iff h).mp hacc.written, ?_⟩
    intro fs' part' htook'
    obtain ⟨rfl, -⟩ := htook.unique htook'
    obtain ⟨fs'', part'', htook'', hrec⟩ := hacc.recoded hret
    obtain ⟨rfl, -⟩ := htook.unique htook''
    exact (forall₂_recoded_iff hframes).mp hrec
  · rintro ⟨hcut, hmatch⟩
    exact ⟨(ret_le_length_iff h).mpr hcut, fun _ => ⟨fs, part, htook,
      (forall₂_recoded_iff hframes).mpr (hmatch fs part htook)⟩⟩

/-- A header that leaves two bytes to an address, which is said to be a name of six bytes, is
accepted.  Four bytes of the address that is returned are the payload and four are whatever was in
the buffer. -/
theorem acceptsEncoded_short_address :
    ∃ s', recvmmsgTcp ⟨[0, 4, 5, 3, 6, 97, 98, 99, 100], [.data 4, .data 3], false⟩ 1 true =
        some (1, [⟨[3, 6], [97, 98, 99, 100]⟩], s') ∧
      (∀ stale, UdpEntry.addrlen ⟨[3, 6], [97, 98, 99, 100]⟩ stale = 10) ∧
      ¬ AcceptsEncoded ⟨[0, 4, 5, 3, 6, 97, 98, 99, 100], [.data 4, .data 3], false⟩ s' 1
        [⟨[3, 6], [97, 98, 99, 100]⟩] := by
  refine ⟨⟨[], [], false⟩, rfl, fun stale => rfl, ?_⟩
  intro h
  obtain ⟨fs, part, htook, hrec⟩ := h.recoded (by decide)
  have hframe : IsFrame [0, 4, 5, 3, 6, 97, 98, 99, 100] ⟨[3, 6], [97, 98, 99, 100]⟩ :=
    ⟨0, 4, 5, 3, 6, [97, 98, 99, 100], rfl, by decide, rfl, rfl, rfl⟩
  have htook' : Took ⟨[0, 4, 5, 3, 6, 97, 98, 99, 100], [.data 4, .data 3], false⟩ ⟨[], [], false⟩
      [[0, 4, 5, 3, 6, 97, 98, 99, 100]] [] :=
    ⟨[0, 4, 5, 3, 6, 97, 98, 99, 100], rfl, .cons ⟨_, hframe⟩ (.nil (incomplete_of_length (by simp)))⟩
  obtain ⟨rfl, -⟩ := htook.unique htook'
  obtain ⟨hrec, -⟩ := List.forall₂_cons.mp hrec
  exact absurd (hframe.recoded_iff.mp hrec) (by rw [AddrMatches]; decide)

/-- The two complete frames of a stream that breaks off in the third one are as the encoder writes
them. -/
theorem acceptsEncoded_thirdCut :
    AcceptsEncoded thirdCut ⟨sampleFrame.drop 7, [], true⟩ 2
      [⟨[1, 10, 0, 0, 1, 0, 53], [7]⟩, ⟨[1, 10, 0, 0, 1, 0, 53], [7]⟩] := by
  refine (acceptsEncoded_iff recvmmsgTcp_thirdCut (by decide)).mpr ⟨?_, ?_⟩
  · rw [cutShort_iff took_thirdCut]
    simp
  · intro fs part htook f hf
    obtain ⟨rfl, -⟩ := htook.unique took_thirdCut
    obtain rfl : f = sampleFrame := by simpa using hf
    rw [AddrMatches]
    decide

end HevTunnel
