import HevTunnel.PrefixCode
import HevTunnel.UDPCodec
import Mathlib.Data.List.Forall2

/-! # What the reader of UDP messages returns when the stream breaks off

`hev_socks5_udp_recvmmsg_tcp` returns the number of messages it has filled, and its callers use
that many entries.  It keeps the results of its reads, which are numbers of bytes, in the same
variable, and returns that one when a read falls short.

`RecvContract` is what the callers rely on.  The frames that a call takes from the stream are told by
the bytes alone (`Took`), and so is where it stops inside of a frame.  `recvContract_iff` says for
every stream, every fragmentation and every way to break off which calls keep the contract: those that
are not `CutShort`. -/

namespace HevTunnel

/-! ### The callers -/

/-- A loop over the first entries that goes on while `go`; `none` when it uses an entry that was
not filled. -/
def useEntries (entries : List UdpEntry) (go : UdpEntry → Bool) : ℕ → ℕ → Option Bool
  | 0, _ => some true
  | n + 1, i =>
      match entries[i]? with
      | none => none
      | some e => if go e then useEntries entries go n (i + 1) else some false

/-- `hev_socks5_addr_into_lwip` has an address for the entry. -/
def intoLwip (e : UdpEntry) : Bool := e.addr.getD 0 0 = 1 || e.addr.getD 0 0 = 4

/-- `hev_socks5_session_udp_fwd_b` after its read returned `res`.  `mapped` is whether the session
has an address of its own to answer from, `deliver` whether the stack takes the message. -/
def sessionUdpFwdB (entries : List UdpEntry) (res : Int) (eagain mapped : Bool)
    (deliver : UdpEntry → Bool) : Option Int :=
  if res ≤ 0 then some (if res = -1 ∧ eagain then 0 else -1)
  else do
    let ok ← useEntries entries (fun e => (mapped || intoLwip e) && deliver e) res.toNat 0
    pure (if ok then 1 else -1)

/-- `hev_socks5_udp_fwd_f` after its read returned `res`.  `resolve` is whether the address of an
entry has a socket address, `bind` whether the socket is bound or can be, and `sent` what sending
the messages returned. -/
def udpFwdF (entries : List UdpEntry) (res : Int) (eagain : Bool) (resolve : UdpEntry → Bool)
    (bind : Bool) (sent : Int) : Option Int :=
  if res ≤ 0 then some (if res = -1 ∧ eagain then 0 else -1)
  else do
    let ok ← useEntries entries (fun e => e.buf ≠ [] && resolve e) res.toNat 0
    if ok ∧ bind ∧ 0 < sent then pure 1
    else if ok ∧ bind ∧ sent = -1 ∧ eagain then pure 0
    else pure (-1)

theorem useEntries_ne_none {entries : List UdpEntry} (go : UdpEntry → Bool) {n i : ℕ}
    (h : i + n ≤ entries.length) : useEntries entries go n i ≠ none := by
  induction n generalizing i with
  | zero => simp [useEntries]
  | succ n ih =>
      have hi : i < entries.length := by omega
      unfold useEntries
      rw [List.getElem?_eq_getElem hi]
      simp only
      split_ifs
      · exact ih (by omega)
      · simp

/-! ### The contract -/

/-- The entry is set from the complete frame `f`, which fits its buffer. -/
def IsFrame (f : List Byte) (e : UdpEntry) : Prop :=
  ∃ hi lo hl t l body, f = hi :: lo :: hl :: t :: l :: body ∧ ¬ HeadRefused hi lo hl ∧
    body.length = hl.toNat - 5 + (hi.toNat * 256 + lo.toNat) ∧
    e.addr = t :: l :: body.take (hl.toNat - 5) ∧ e.buf = body.drop (hl.toNat - 5)

/-- What a call that returned `ret` promises its callers: no more messages than asked for, as many
entries set from complete frames at the front of the stream, none if there was no complete frame;
so that the callers use no other entry. -/
structure RecvContract (s : Sock) (num : ℕ) (ret : Int) (entries : List UdpEntry) : Prop where
  bound : ret ≤ num
  filled : ∀ r : ℕ, ret = r → r ≤ entries.length ∧
    ∃ fs, List.Forall₂ IsFrame fs (entries.take r) ∧ fs.flatten <+: s.input
  broken : entries = [] → ret ≤ 0
  session : ∀ eagain mapped deliver, sessionUdpFwdB entries ret eagain mapped deliver ≠ none
  forward : ∀ eagain resolve bind sent, udpFwdF entries ret eagain resolve bind sent ≠ none

/-- The bytes are one complete frame. -/
def WholeFrame (f : List Byte) : Prop := ∃ e, IsFrame f e

/-- What was taken from the stream between `s` and `s'`: the complete frames `fs`, and a part of the
frame behind them. -/
def Took (s s' : Sock) (fs : List (List Byte)) (part : List Byte) : Prop :=
  ∃ taken, s.input = taken ++ s'.input ∧ Segments WholeFrame taken fs part

/-- The first `n` bytes came in one piece, and then nothing more: the wait failed with `-1` or with
`-2`, which outweighs the `n` bytes. -/
def Outweighed (s s' : Sock) (n : ℕ) : Prop :=
  n ≤ firstPiece s.events ∧ ((n ≤ 1 ∧ EndsIn s s' .err) ∨ (n ≤ 2 ∧ EndsIn s s' .timeout))

/-- The stream breaks off inside of a frame, either among the first five bytes of the very first one,
unless the failure outweighs them, or behind the first five bytes of a frame, with more bytes read
there than there are frames before it. -/
def CutShort (s s' : Sock) : Prop :=
  ∃ fs part, Took s s' fs part ∧
    ((fs = [] ∧ 0 < part.length ∧ part.length < 5 ∧ ¬ Outweighed s s' part.length) ∨
      fs.length + 5 < part.length)

/-! ### Frames in a stream -/

/-- How long a frame is stands in its first three bytes. -/
theorem prefixFree_wholeFrame : PrefixFree WholeFrame := by
  rintro v w x ⟨_, hi, lo, hl, t, l, body, rfl, -, hlen, -⟩
    ⟨_, hi', lo', hl', t', l', body', rfl, -, hlen', -⟩ ⟨r, hr⟩ ⟨r', hr'⟩
  have hx := hr.trans hr'.symm
  simp only [List.cons_append, List.cons.injEq] at hx
  obtain ⟨rfl, rfl, rfl, rfl, rfl, hbody⟩ := hx
  rw [(List.append_inj hbody (hlen.trans hlen'.symm)).1]

theorem incomplete_of_length {part : List Byte} (h : part.length < 5) :
    Incomplete WholeFrame part := by
  rintro w hw ⟨_, hi, lo, hl, t, l, body, rfl, -⟩
  have := hw.length_le
  simp only [List.length_cons] at this
  omega

/-- The first five bytes are refused, or announce more than there is. -/
theorem incomplete_of_head {hi lo hl t l : Byte} {data : List Byte}
    (h : HeadRefused hi lo hl ∨ data.length < hl.toNat - 5 + (hi.toNat * 256 + lo.toNat)) :
    Incomplete WholeFrame (hi :: lo :: hl :: t :: l :: data) := by
  rintro w ⟨r, hr⟩ ⟨_, hi', lo', hl', t', l', body, rfl, hhead, hlen, -⟩
  simp only [List.cons_append, List.cons.injEq] at hr
  obtain ⟨rfl, rfl, rfl, rfl, rfl, rfl⟩ := hr
  rcases h with href | hlt
  · exact hhead href
  · rw [List.length_append] at hlt
    omega

/-- The bytes taken tell the frames. -/
theorem Took.unique {s s' : Sock} {fs fs' : List (List Byte)} {part part' : List Byte}
    (h : Took s s' fs part) (h' : Took s s' fs' part') : fs = fs' ∧ part = part' := by
  obtain ⟨taken, hin, hseg⟩ := h
  obtain ⟨taken', hin', hseg'⟩ := h'
  obtain rfl : taken = taken' := List.append_cancel_right (hin.symm.trans hin')
  exact hseg.unique prefixFree_wholeFrame hseg'

theorem cutShort_iff {s s' : Sock} {fs : List (List Byte)} {part : List Byte}
    (h : Took s s' fs part) :
    CutShort s s' ↔
      (fs = [] ∧ 0 < part.length ∧ part.length < 5 ∧ ¬ Outweighed s s' part.length) ∨
        fs.length + 5 < part.length := by
  constructor
  · rintro ⟨fs', part', h', hcut⟩
    obtain ⟨rfl, rfl⟩ := h.unique h'
    exact hcut
  · exact fun hcut => ⟨fs, part, h, hcut⟩

/-- Frames that were taken before. -/
theorem Took.append {s s₁ s' : Sock} {fs₀ fs : List (List Byte)} {part : List Byte}
    (hfs₀ : ∀ f ∈ fs₀, WholeFrame f) (hin : s.input = fs₀.flatten ++ s₁.input)
    (h : Took s₁ s' fs part) : Took s s' (fs₀ ++ fs) part := by
  obtain ⟨taken, hin₁, hseg⟩ := h
  exact ⟨fs₀.flatten ++ taken, by rw [hin, hin₁, List.append_assoc], hseg.append hfs₀⟩

/-! ### A round reads a frame -/

/-- The first five bytes are read, or the stream breaks off among them. -/
theorem recvHead_cases {s s' : Sock} {nonblock : Bool} {res : Int} {hd : List Byte}
    (h : recvHead s nonblock = some (res, hd, s')) :
    s.input = hd ++ s'.input ∧ ((res = 5 ∧ hd.length = 5) ∨ (res ≠ 5 ∧ hd.length < 5 ∧
      (0 < res ↔ 0 < hd.length ∧ ¬ Outweighed s s' hd.length))) := by
  simp only [recvHead, Option.bind_eq_bind, Option.bind_eq_some_iff] at h
  obtain ⟨⟨res₁, d, s₁⟩, h₁, h⟩ := h
  obtain ⟨hin₁, hlen₁, hres₁⟩ := recv_once h₁
  simp only at h
  split_ifs at h with hshort
  · rw [Option.bind_eq_some_iff] at h
    obtain ⟨⟨res₂, d', s₂⟩, h₂, h⟩ := h
    obtain ⟨rfl, rfl, rfl⟩ : res₁ + res₂ = res ∧ d ++ d' = hd ∧ s₂ = s' := by simpa using h
    obtain ⟨hin₂, hlen₂, hres₂⟩ := recv_waitall h₂
    have hd : res₁ = d.length := by
      rcases hres₁ with hres₁ | ⟨-, hneg⟩
      · exact hres₁
      · omega
    obtain ⟨hpiece, met, hmet⟩ := recv_piece h₁ (by rintro rfl; simp at hd; omega)
    have hdlen := congrArg List.length hpiece
    have hinlen := congrArg List.length (hin₁.trans (congrArg (d ++ ·) hin₂))
    rw [List.length_take] at hdlen
    simp only [List.length_append] at hinlen
    refine ⟨by rw [hin₁, hin₂, List.append_assoc], ?_⟩
    by_cases hd' : d' = []
    · -- only the first piece was read, and the result tells how the wait ended
      subst hd'
      obtain ⟨e, ⟨met', hmet'⟩, hend⟩ := recv_nothing h₂
      have hends : EndsIn s s₂ e := ⟨met ++ met', by rw [hmet, hmet', List.append_assoc]⟩
      have herr : EndsIn s s₂ .err ↔ e = .err := ⟨fun h => hends.unique h, fun h => h ▸ hends⟩
      have htime : EndsIn s s₂ .timeout ↔ e = .timeout :=
        ⟨fun h => hends.unique h, fun h => h ▸ hends⟩
      rw [Outweighed, herr, htime, List.append_nil]
      rcases hend with ⟨rfl, rfl⟩ | ⟨rfl, rfl⟩ | ⟨rfl, hne, hne'⟩
      · simp only [and_true, reduceCtorEq, and_false, or_false]
        omega
      · simp only [reduceCtorEq, and_false, and_true, false_or]
        omega
      · simp only [hne, hne', and_false, or_false, not_false_eq_true, and_true]
        omega
    · have hpos : 0 < d'.length := List.length_pos_iff.mpr hd'
      have hres₂ : res₂ = d'.length := hres₂.resolve_right (fun hnil => hd' hnil.1)
      rw [Outweighed, List.length_append]
      have : ¬ d.length + d'.length ≤ firstPiece s.events := by omega
      simp only [this, false_and, not_false_eq_true, and_true]
      omega
  · obtain ⟨rfl, rfl, rfl⟩ : res₁ = res ∧ d = hd ∧ s₁ = s' := by simpa using h
    exact ⟨hin₁, by rcases hres₁ with hres₁ | ⟨rfl, hneg⟩ <;> simp <;> omega⟩

/-- The rest of a frame is refused, or read, or the stream breaks off in it. -/
theorem recvBody_cases {s s' : Sock} {hi lo hl t l : Byte} {r : FrameRes}
    (h : recvBody s [hi, lo, hl, t, l] = some (r, s')) :
    (HeadRefused hi lo hl ∧ r = .refused ∧ s = s') ∨
    (¬ HeadRefused hi lo hl ∧ ∃ data, s.input = data ++ s'.input ∧
      ((∃ e, r = .msg e ∧ IsFrame (hi :: lo :: hl :: t :: l :: data) e) ∨
       (∃ res, r = .body res ∧ data.length < bodyLen hi lo hl ∧
          (res = data.length ∨ (data = [] ∧ res < 0))) ∨
       (∃ res, r = .body res ∧ bodyLen hi lo hl = 0 ∧ data = [] ∧ res < 0))) := by
  rw [recvBody_eq] at h
  split_ifs at h with href
  · cases h
    exact .inl ⟨href, rfl, rfl⟩
  refine .inr ⟨href, ?_⟩
  obtain ⟨⟨res, data, s₁⟩, h₁, h⟩ := Option.map_eq_some_iff.mp h
  obtain ⟨hin, hlen, hres⟩ := recv_waitall h₁
  have hhl : ¬ hl.toNat < 5 := fun hlt => href (.inl hlt)
  have hsub : hl.toNat - 3 - 2 = hl.toNat - 5 := by omega
  simp only at h
  split_ifs at h with hall
  · cases h
    refine ⟨data, hin, .inl ⟨_, rfl, hi, lo, hl, t, l, data, rfl, href, ?_, by rw [hsub], by rw [hsub]⟩⟩
    rw [bodyLen] at hall hlen
    omega
  · cases h
    refine ⟨data, hin, .inr ?_⟩
    rcases hres with hres | ⟨rfl, hneg⟩
    · exact .inl ⟨res, rfl, by omega, .inl hres⟩
    · by_cases hzero : bodyLen hi lo hl = 0
      · exact .inr ⟨res, rfl, hzero, rfl, hneg⟩
      · exact .inl ⟨res, rfl, by simp only [List.length_nil]; omega, .inr ⟨rfl, hneg⟩⟩

/-- The first five bytes and what follows them. -/
theorem recvFrame_cases {s s' : Sock} {nonblock : Bool} {r : FrameRes}
    (h : recvFrame s nonblock = some (r, s')) :
    (∃ res hd, r = .head res ∧ s.input = hd ++ s'.input ∧ hd.length < 5 ∧
      (0 < res ↔ 0 < hd.length ∧ ¬ Outweighed s s' hd.length)) ∨
    ∃ hi lo hl t l s₁, s.input = [hi, lo, hl, t, l] ++ s₁.input ∧
      recvBody s₁ [hi, lo, hl, t, l] = some (r, s') := by
  simp only [recvFrame, Option.bind_eq_bind, Option.bind_eq_some_iff] at h
  obtain ⟨⟨res, hd, s₁⟩, h₁, h⟩ := h
  obtain ⟨hin, ⟨rfl, hlen⟩ | ⟨hne, hlen, hpos⟩⟩ := recvHead_cases h₁
  · obtain ⟨hi, lo, hl, t, l, rest, rfl⟩ := exists_five hlen.ge
    obtain rfl : rest = [] := by simpa using hlen
    exact .inr ⟨hi, lo, hl, t, l, s₁, hin, h⟩
  · simp only [ne_eq, hne, not_false_eq_true, if_true] at h
    cases h
    exact .inl ⟨res, hd, rfl, hin, hlen, hpos⟩

/-- A round that reads a message reads one complete frame. -/
theorem recvFrame_isFrame {s s' : Sock} {nonblock : Bool} {e : UdpEntry}
    (h : recvFrame s nonblock = some (.msg e, s')) :
    ∃ f, IsFrame f e ∧ s.input = f ++ s'.input := by
  obtain ⟨_, _, hr, -⟩ | ⟨hi, lo, hl, t, l, s₁, hin₁, hbody⟩ := recvFrame_cases h
  · cases hr
  obtain ⟨-, hr, -⟩ | ⟨-, data, hin, ⟨e', hr, hf⟩ | ⟨_, hr, -⟩ | ⟨_, hr, -⟩⟩ := recvBody_cases hbody
  · cases hr
  · cases hr
    exact ⟨_, hf, by rw [hin₁, hin]; rfl⟩
  · cases hr
  · cases hr

/-! ### A round that breaks off -/

/-- What a round that does not read a message has taken from the stream, and what it returns for
it. -/
def StoppedAt (s s' : Sock) (fs : List (List Byte)) (part : List Byte) : FrameRes → Prop
  | .head res => fs = [] ∧ part.length < 5 ∧ (0 < res ↔ 0 < part.length ∧ ¬ Outweighed s s' part.length)
  | .refused => part.length = 5
  | .body res => (res ≤ 0 ∧ (part = [] ∨ part.length = 5)) ∨
      (fs = [] ∧ 5 < part.length ∧ res = part.length - 5)
  | .msg _ => False

theorem recvFrame_stopped {s s' : Sock} {nonblock : Bool} {r : FrameRes}
    (h : recvFrame s nonblock = some (r, s')) (hmsg : ∀ e, r ≠ .msg e) :
    ∃ fs part, Took s s' fs part ∧ StoppedAt s s' fs part r := by
  obtain ⟨res, hd, rfl, hin, hlen, hpos⟩ | ⟨hi, lo, hl, t, l, s₁, hin₁, hbody⟩ := recvFrame_cases h
  · exact ⟨[], hd, ⟨hd, hin, .nil (incomplete_of_length hlen)⟩, rfl, hlen, hpos⟩
  have hsub : bodyLen hi lo hl = hl.toNat - 5 + (hi.toNat * 256 + lo.toNat) := by
    rw [bodyLen]
    omega
  obtain ⟨href, rfl, rfl⟩ | ⟨hhead, data, hin, ⟨e, rfl, -⟩ | ⟨res, rfl, hlt, hres⟩ |
    ⟨res, rfl, hzero, rfl, hneg⟩⟩ := recvBody_cases hbody
  · exact ⟨[], [hi, lo, hl, t, l], ⟨_, hin₁, .nil (incomplete_of_head (.inl href))⟩, rfl⟩
  · exact absurd rfl (hmsg e)
  · rw [hsub] at hlt
    refine ⟨[], [hi, lo, hl, t, l] ++ data, ⟨_, by rw [hin₁, hin, List.append_assoc],
      .nil (incomplete_of_head (.inr hlt))⟩, ?_⟩
    by_cases hdata : data = []
    · refine .inl ⟨?_, .inr (by simp [hdata])⟩
      rcases hres with hres | ⟨-, hneg⟩
      · simp [hres, hdata]
      · omega
    · have hres := hres.resolve_right (fun hnil => hdata hnil.1)
      have hpos := List.length_pos_iff.mpr hdata
      exact .inr ⟨rfl, by simpa using hpos, by rw [hres, List.length_append]; simp⟩
  · -- a frame without a body is complete after its first five bytes
    have hwhole : WholeFrame [hi, lo, hl, t, l] :=
      ⟨⟨[t, l], []⟩, hi, lo, hl, t, l, [], rfl, hhead, by simp; omega, by simp, by simp⟩
    refine ⟨[[hi, lo, hl, t, l]], [], ⟨_, by rw [hin₁, hin]; rfl, ?_⟩, .inl ⟨by omega, .inl rfl⟩⟩
    exact .cons hwhole (.nil (incomplete_of_length (by simp)))

/-! ### The rounds of a call -/

/-- How a call ends: with all the messages asked for, or in the round after the messages `es`. -/
theorem recvmmsgLoop_cases {nonblock : Bool} {n : ℕ} {out entries : List UdpEntry} {s s' : Sock}
    {ret : Int} (h : recvmmsgLoop nonblock n out s = some (ret, entries, s')) :
    ∃ es fs s₁, entries = out ++ es ∧ List.Forall₂ IsFrame fs es ∧ s.input = fs.flatten ++ s₁.input ∧
      (es = [] → s₁ = s) ∧
      ((es.length = n ∧ ret = entries.length ∧ s' = s₁) ∨
       (es.length < n ∧ ∃ r, recvFrame s₁ nonblock = some (r, s') ∧
        ((∃ res, r = .head res ∧ ret = if entries ≠ [] then (entries.length : Int) else res) ∨
         (r = .refused ∧ ret = -1) ∨ (r = .body ret)))) := by
  induction n generalizing out s with
  | zero =>
      cases h
      exact ⟨[], [], _, by simp, .nil, rfl, fun _ => rfl, .inl ⟨rfl, rfl, rfl⟩⟩
  | succ n ih =>
      simp only [recvmmsgLoop, Option.bind_eq_bind, Option.bind_eq_some_iff] at h
      obtain ⟨⟨r, s₁⟩, h₁, h⟩ := h
      cases r with
      | head res =>
          cases h
          exact ⟨[], [], s, by simp, .nil, rfl, fun _ => rfl,
            .inr ⟨by simp, _, h₁, .inl ⟨res, rfl, rfl⟩⟩⟩
      | refused =>
          cases h
          exact ⟨[], [], s, by simp, .nil, rfl, fun _ => rfl,
            .inr ⟨by simp, _, h₁, .inr (.inl ⟨rfl, rfl⟩)⟩⟩
      | body res =>
          cases h
          exact ⟨[], [], s, by simp, .nil, rfl, fun _ => rfl, .inr ⟨by simp, _, h₁, .inr (.inr rfl)⟩⟩
      | msg e =>
          obtain ⟨es, fs, s₂, hout, hfs, hin, -, hend⟩ := ih h
          obtain ⟨f, hf, hin₁⟩ := recvFrame_isFrame h₁
          refine ⟨e :: es, f :: fs, s₂, by rw [hout]; simp, .cons hf hfs, ?_, by simp, ?_⟩
          · rw [hin₁, hin, List.flatten_cons, List.append_assoc]
          · rw [List.length_cons]
            rcases hend with ⟨hn, hret⟩ | ⟨hn, hend⟩
            · exact .inl ⟨by omega, hret⟩
            · exact .inr ⟨by omega, hend⟩

theorem forall_wholeFrame {fs : List (List Byte)} {es : List UdpEntry}
    (h : List.Forall₂ IsFrame fs es) : ∀ f ∈ fs, WholeFrame f := by
  induction h with
  | nil => simp
  | cons hf _ ih => exact List.forall_mem_cons.mpr ⟨⟨_, hf⟩, ih⟩

/-- The contract is that the result does not exceed the number of entries filled. -/
theorem recvContract_of_frames {s s₁ : Sock} {num : ℕ} {ret : Int} {entries : List UdpEntry}
    {fs : List (List Byte)} (hfs : List.Forall₂ IsFrame fs entries)
    (hin : s.input = fs.flatten ++ s₁.input) (hnum : entries.length ≤ num) :
    RecvContract s num ret entries ↔ ret ≤ entries.length := by
  constructor
  · intro h
    by_cases hret : ret ≤ 0
    · omega
    · have := (h.filled ret.toNat (by omega)).1
      omega
  · intro hle
    refine ⟨by omega, ?_, ?_, ?_, ?_⟩
    · rintro r rfl
      refine ⟨by omega, fs.take r, List.forall₂_take r hfs, ?_⟩
      rw [hin]
      nth_rewrite 2 [← List.take_append_drop r fs]
      rw [List.flatten_append, List.append_assoc]
      exact List.prefix_append _ _
    · rintro rfl
      simpa using hle
    · intro eagain mapped deliver
      unfold sessionUdpFwdB
      split_ifs
      · simp
      · simp
      · obtain ⟨ok, hok⟩ := Option.ne_none_iff_exists'.mp
          (useEntries_ne_none (fun e => (mapped || intoLwip e) && deliver e)
            (show 0 + ret.toNat ≤ entries.length by omega))
        simp [hok]
    · intro eagain resolve bind sent
      unfold udpFwdF
      split_ifs
      · simp
      · simp
      · obtain ⟨ok, hok⟩ := Option.ne_none_iff_exists'.mp
          (useEntries_ne_none (fun e => e.buf ≠ [] && resolve e)
            (show 0 + ret.toNat ≤ entries.length by omega))
        simp only [hok, Option.bind_eq_bind, Option.bind_some, Option.pure_def]
        split_ifs <;> simp

/-- A call has taken the frames of its entries, and if its result is positive no others. -/
theorem recvmmsgTcp_took {s s' : Sock} {num : ℕ} {nonblock : Bool} {ret : Int}
    {entries : List UdpEntry} (h : recvmmsgTcp s num nonblock = some (ret, entries, s')) :
    ∃ fs fs' part, Took s s' (fs ++ fs') part ∧ List.Forall₂ IsFrame fs entries ∧
      (0 < ret → fs' = []) := by
  obtain ⟨_, fs, s₁, rfl, hfs, hin, -, hend⟩ := recvmmsgLoop_cases h
  have hwhole := forall_wholeFrame hfs
  rcases hend with ⟨-, rfl, rfl⟩ | ⟨-, r, hr, hend⟩
  · refine ⟨fs, [], [], ⟨fs.flatten, hin, ?_⟩, hfs, fun _ => rfl⟩
    exact ⟨by simp, by simpa using hwhole, incomplete_of_length (by simp)⟩
  · obtain ⟨fs', part, htook, hstop⟩ := recvFrame_stopped hr (by rintro e rfl; simp at hend)
    refine ⟨fs, fs', part, htook.append hwhole hin, hfs, fun hret => ?_⟩
    rcases hend with ⟨res, rfl, -⟩ | ⟨-, rfl⟩ | rfl
    · exact hstop.1
    · omega
    · rcases hstop with ⟨hle, -⟩ | ⟨hnil, -⟩
      · omega
      · exact hnil

/-- The result counts filled entries alone exactly if the stream is not cut short. -/
theorem ret_le_length_iff {s s' : Sock} {num : ℕ} {nonblock : Bool} {ret : Int}
    {entries : List UdpEntry} (h : recvmmsgTcp s num nonblock = some (ret, entries, s')) :
    ret ≤ entries.length ↔ ¬ CutShort s s' := by
  obtain ⟨_, fs, s₁, rfl, hfs, hin, hfirst, hend⟩ := recvmmsgLoop_cases h
  have hwhole := forall_wholeFrame hfs
  have hlen := hfs.length_eq
  rcases hend with ⟨-, rfl, rfl⟩ | ⟨-, r, hr, hend⟩
  · have htook : Took s s' fs [] :=
      ⟨fs.flatten, hin, by simp, hwhole, incomplete_of_length (by simp)⟩
    rw [cutShort_iff htook]
    simp
  · obtain ⟨fs', part, htook, hstop⟩ := recvFrame_stopped hr (by rintro e rfl; simp at hend)
    rw [cutShort_iff (htook.append hwhole hin)]
    rcases hend with ⟨res, rfl, rfl⟩ | ⟨rfl, rfl⟩ | rfl
    · obtain ⟨rfl, hlt, hpos⟩ := hstop
      cases fs with
      | nil =>
          -- nothing was read before, and the result is that of the reads
          obtain rfl : entries = [] := List.length_eq_zero_iff.mp hlen.symm
          rw [hfirst rfl] at hpos
          simp only [List.nil_append, ne_eq, not_true_eq_false, if_false, List.length_nil, true_and]
          rw [← not_lt]
          change ¬ 0 < res ↔ _
          rw [hpos]
          constructor
          · rintro hnot (⟨h₁, -, h₂⟩ | h₁)
            · exact hnot ⟨h₁, h₂⟩
            · omega
          · intro hnot h₁
            exact hnot (.inl ⟨h₁.1, hlt, h₁.2⟩)
      | cons f fs =>
          have hne : entries ≠ [] := by
            rintro rfl
            simp at hlen
          simp only [if_pos hne, le_refl, true_iff, List.append_nil, reduceCtorEq, false_and,
            false_or]
          omega
    · have h5 : part.length = 5 := hstop
      rw [h5]
      constructor
      · rintro - (⟨-, -, hlt, -⟩ | hlt)
        · omega
        · omega
      · omega
    · rcases hstop with ⟨hle, hpart⟩ | ⟨rfl, hlt, rfl⟩
      · have hpart' : part.length = 0 ∨ part.length = 5 := by
          rcases hpart with rfl | h5
          · exact .inl rfl
          · exact .inr h5
        constructor
        · rintro - (⟨-, hpos, hlt, -⟩ | hlt)
          · omega
          · omega
        · omega
      · rw [List.append_nil]
        constructor
        · rintro hle (⟨-, -, h5, -⟩ | hcut)
          · omega
          · omega
        · intro hnot
          rw [not_or, not_lt] at hnot
          omega

/-- For every stream, fragmentation and way to break off: a call keeps its contract exactly if the
stream is not cut short inside of a frame. -/
theorem recvContract_iff {s s' : Sock} {num : ℕ} {nonblock : Bool} {ret : Int}
    {entries : List UdpEntry} (h : recvmmsgTcp s num nonblock = some (ret, entries, s')) :
    RecvContract s num ret entries ↔ ¬ CutShort s s' := by
  obtain ⟨_, fs, s₁, rfl, hfs, hin, -, hend⟩ := recvmmsgLoop_cases h
  rw [← ret_le_length_iff h]
  exact recvContract_of_frames hfs hin (by rcases hend with ⟨hn, -⟩ | ⟨hn, -⟩ <;> omega)

/-- A connection that closes after three bytes of a header keeps no contract. -/
theorem recvContract_short_header :
    ∃ s', recvmmsgTcp ⟨[0, 1, 10], [.data 4, .eof], false⟩ 10 true = some (3, [], s') ∧
      ¬ RecvContract ⟨[0, 1, 10], [.data 4, .eof], false⟩ 10 3 [] ∧
      ∀ eagain mapped deliver, sessionUdpFwdB [] 3 eagain mapped deliver = none := by
  refine ⟨_, rfl, ?_, fun _ _ _ => rfl⟩
  intro h
  exact absurd (h.broken rfl) (by decide)

/-- The frame of one byte to an IPv4 address. -/
def sampleFrame : List Byte := [0, 1, 10, 1, 10, 0, 0, 1, 0, 53, 7]

theorem wholeFrame_sampleFrame : WholeFrame sampleFrame :=
  ⟨⟨[1, 10, 0, 0, 1, 0, 53], [7]⟩, 0, 1, 10, 1, 10, [0, 0, 1, 0, 53, 7], rfl, by decide, rfl, rfl, rfl⟩

/-- Three frames, and a timeout behind two bytes of the body of the third. -/
def thirdCut : Sock :=
  ⟨sampleFrame ++ (sampleFrame ++ sampleFrame),
    [.data 2, .data 1, .data 5, .data 4, .data 5, .data 4, .data 1, .timeout], false⟩

theorem took_thirdCut : Took thirdCut ⟨sampleFrame.drop 7, [], true⟩ [sampleFrame, sampleFrame]
    [0, 1, 10, 1, 10, 0, 0] :=
  ⟨sampleFrame ++ (sampleFrame ++ [0, 1, 10, 1, 10, 0, 0]), rfl,
    .cons wholeFrame_sampleFrame (.cons wholeFrame_sampleFrame
      (.nil (incomplete_of_head (.inr (by decide)))))⟩

set_option maxRecDepth 4096 in
theorem recvmmsgTcp_thirdCut : recvmmsgTcp thirdCut 10 true =
    some (2, [⟨[1, 10, 0, 0, 1, 0, 53], [7]⟩, ⟨[1, 10, 0, 0, 1, 0, 53], [7]⟩],
      ⟨sampleFrame.drop 7, [], true⟩) :=
  rfl

/-- The call returns two messages, which keeps the contract. -/
theorem recvContract_thirdCut :
    RecvContract thirdCut 10 2
      [⟨[1, 10, 0, 0, 1, 0, 53], [7]⟩, ⟨[1, 10, 0, 0, 1, 0, 53], [7]⟩] := by
  refine (recvContract_iff recvmmsgTcp_thirdCut).mpr ?_
  rw [cutShort_iff took_thirdCut]
  simp

end HevTunnel
