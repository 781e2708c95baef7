import HevTunnel.Transition
import HevTunnel.UDPCodec

/-! # The outgoing messages of a UDP session over TCP

A session queues the messages of its client (`udp_recv_handler`) and sends them in batches
(`hev_socks5_session_udp_fwd_f`), also while the queue grows.  The splice loop calls the latter
until it fails.

`Intact` relates the stream to the messages that have left the queue.  `sendmmsgTcp` takes every
positive result of `sendmsg` for a complete write, so a write that a timeout or an error cuts
short leaves a piece of a frame behind, and the session goes on.  `run_intact_iff`: the stream is
intact all along a run exactly if no write of the run is cut short. -/

namespace HevTunnel

/-- `UDP_POOL_SIZE`. -/
def udpPoolSize : ℕ := 512

/-- The sending side of a session, with the messages removed from the queue and the bytes written
to the stream so far. -/
structure SessionUdp where
  frames : List UdpMsg
  /-- The last result of `hev_socks5_session_udp_fwd_f`. -/
  resF : Int
  removed : List UdpMsg
  stream : List Byte

namespace SessionUdp

def init : SessionUdp := ⟨[], 1, [], []⟩

/-- `udp_recv_handler` on the queue; the flag is whether a frame can be allocated. -/
def enqueue (frames : List UdpMsg) (m : UdpMsg × Bool) : List UdpMsg :=
  if frames.length > udpPoolSize then frames
  else if m.2 then frames ++ [m.1]
  else frames

/-- `hev_socks5_session_udp_fwd_f`; the messages `arrived` come in while it sends. -/
def fwdF (s : SessionUdp) (num : ℕ) (arrived : List (UdpMsg × Bool)) (events : List IoEvent) :
    Option (Int × SessionUdp) :=
  if s.frames.length = 0 then some (0, s)
  else do
    let (res, out, _) ← sendmmsgTcp (s.frames.take num) events
    let s := { s with frames := arrived.foldl enqueue s.frames, stream := s.stream ++ out }
    if res ≤ 0 then pure (-1, s)
    else pure (1, { s with
      frames := s.frames.drop res.toNat
      removed := s.removed ++ s.frames.take res.toNat })

/-- What happens to a session: a message arrives, or the splice loop comes round. -/
inductive Step where
  | arrive (m : UdpMsg × Bool)
  | fwd (arrived : List (UdpMsg × Bool)) (events : List IoEvent)

/-- One step, `none` while the write of a round has not returned. -/
def step (num : ℕ) (s : SessionUdp) : Step → Option SessionUdp
  | .arrive m => some { s with frames := enqueue s.frames m }
  | .fwd arrived events =>
      if 0 ≤ s.resF then do
        let (res, s) ← s.fwdF num arrived events
        pure { s with resF := res }
      else some s

def run (num : ℕ) : SessionUdp → List Step → Option SessionUdp := runSteps (step num)

/-! ### The property -/

/-- The frames of messages on the stream. -/
def frameBytes (ms : List UdpMsg) : List Byte :=
  ms.flatMap (fun m => m.addr.elim [] (fun addr => (frameIov addr m.buf).flatten))

theorem frameBytes_append (ms ms' : List UdpMsg) :
    frameBytes (ms ++ ms') = frameBytes ms ++ frameBytes ms' :=
  List.flatMap_append

theorem flatten_batchIov {ms : List UdpMsg} {iov : List (List Byte)} (h : batchIov ms = some iov) :
    iov.flatten = frameBytes ms := by
  induction ms generalizing iov with
  | nil =>
      cases h
      rfl
  | cons m ms ih =>
      simp only [batchIov, Option.bind_eq_bind, Option.bind_eq_some_iff, Option.pure_def,
        Option.some.injEq] at h
      obtain ⟨addr, haddr, iov', hiov, rfl⟩ := h
      rw [List.flatten_append, ih hiov]
      simp [frameBytes, haddr]

/-- The stream holds the frames of exactly the messages removed, and behind them a piece of
another frame only if the last round failed, so that nothing more will be written. -/
def Intact (s : SessionUdp) : Prop :=
  ∃ piece, s.stream = frameBytes s.removed ++ piece ∧
    (piece ≠ [] → s.resF < 0 ∧ ∃ m, piece <+: frameBytes [m] ∧ piece ≠ frameBytes [m])

/-- A round whose write returns the number of messages has written all of their bytes. -/
def FullWrite (num : ℕ) (s : SessionUdp) : Step → Prop
  | .arrive _ => True
  | .fwd _ events => 0 ≤ s.resF → s.frames ≠ [] → ∀ out es,
      sendmmsgTcp (s.frames.take num) events = some (((s.frames.take num).length : Int), out, es) →
        out = frameBytes (s.frames.take num)

/-- A round whose write returns a positive number of bytes, but not all. -/
def CutShort (num : ℕ) (s : SessionUdp) : Step → Prop
  | .arrive _ => False
  | .fwd _ events => 0 ≤ s.resF ∧ s.frames ≠ [] ∧ ∃ iov ret out es,
      batchIov (s.frames.take num) = some iov ∧ sendmsg iov events = some (ret, out, es) ∧
        0 < ret ∧ ret < iov.flatten.length

/-! ### One step -/

/-- Messages that arrive are queued behind the others. -/
theorem enqueue_append (frames : List UdpMsg) (m : UdpMsg × Bool) :
    ∃ new, enqueue frames m = frames ++ new := by
  unfold enqueue
  split_ifs
  · exact ⟨[], by simp⟩
  · exact ⟨[m.1], rfl⟩
  · exact ⟨[], by simp⟩

theorem foldl_enqueue (arrived : List (UdpMsg × Bool)) (frames : List UdpMsg) :
    ∃ new, arrived.foldl enqueue frames = frames ++ new := by
  induction arrived generalizing frames with
  | nil => exact ⟨[], by simp⟩
  | cons m arrived ih =>
      obtain ⟨new, hnew⟩ := enqueue_append frames m
      obtain ⟨new', hnew'⟩ := ih (frames ++ new)
      refine ⟨new ++ new', ?_⟩
      rw [List.foldl_cons, hnew, hnew', List.append_assoc]

/-- A batch is written in part or not at all. -/
theorem sendmmsgTcp_cases {ms : List UdpMsg} {events es : List IoEvent} {res : Int}
    {out : List Byte} (h : sendmmsgTcp ms events = some (res, out, es)) :
    (res = -1 ∧ out = [] ∧ ∀ iov r, batchIov ms = some iov → sendmsg iov events = some r → r.1 ≤ 0) ∨
    (res = ms.length ∧ 0 < res ∧ ∃ iov ret rest, batchIov ms = some iov ∧
      sendmsg iov events = some (ret, out, es) ∧ 0 < ret ∧ ret = out.length ∧
      iov.flatten = out ++ rest) := by
  unfold sendmmsgTcp at h
  cases hiov : batchIov ms with
  | none =>
      rw [hiov] at h
      cases h
      exact .inl ⟨rfl, rfl, by simp⟩
  | some iov =>
      simp only [hiov, Option.bind_eq_bind, Option.bind_eq_some_iff, Option.pure_def] at h
      obtain ⟨⟨ret, out', es'⟩, hsend, h⟩ := h
      obtain ⟨⟨rest, hrest⟩, hret⟩ := sendmsg_cases hsend
      simp only [Option.some.injEq, Prod.mk.injEq] at h
      obtain ⟨hres, rfl, rfl⟩ := h
      by_cases hle : ret ≤ 0
      · rw [if_pos hle] at hres
        refine .inl ⟨hres.symm, ?_, ?_⟩
        · rcases hret with hret | ⟨hout, -⟩
          · exact List.length_eq_zero_iff.mp (by omega)
          · exact hout
        · intro iov' r h' hr
          cases h'
          rw [hsend] at hr
          cases hr
          exact hle
      · rw [if_neg hle] at hres
        have hlen : ret = out'.length := by
          rcases hret with hret | ⟨-, hneg⟩
          · exact hret
          · omega
        have hne : ms ≠ [] := by
          -- an empty batch has no bytes to write
          rintro rfl
          cases hiov
          simp only [List.flatten_nil, List.nil_eq, List.append_eq_nil_iff] at hrest
          rw [hrest.1, List.length_nil] at hlen
          omega
        have := List.length_pos_iff.mpr hne
        exact .inr ⟨hres.symm, by omega, iov, ret, rest, rfl, hsend, by omega, hlen, hrest⟩

section step
variable {num : ℕ} {s s' : SessionUdp} {x : Step}

/-- What a step can do: write nothing, or write the first bytes of a batch and remove the batch. -/
theorem step_cases (h : s.step num x = some s') :
    (s'.stream = s.stream ∧ s'.removed = s.removed ∧ ¬ CutShort num s x) ∨
    (∃ arrived events iov ret out es rest, x = .fwd arrived events ∧ 0 ≤ s.resF ∧ s.frames ≠ [] ∧
      batchIov (s.frames.take num) = some iov ∧ sendmsg iov events = some (ret, out, es) ∧
      0 < ret ∧ ret = out.length ∧ iov.flatten = out ++ rest ∧
      s'.stream = s.stream ++ out ∧ s'.removed = s.removed ++ s.frames.take num ∧ s'.resF = 1) := by
  cases x with
  | arrive m =>
      cases h
      exact .inl ⟨rfl, rfl, id⟩
  | fwd arrived events =>
      simp only [step] at h
      split_ifs at h with hres
      · simp only [fwdF, Option.bind_eq_bind, Option.bind_eq_some_iff, Option.pure_def,
          Option.some.injEq] at h
        obtain ⟨⟨r, s₁⟩, h₁, rfl⟩ := h
        split_ifs at h₁ with hempty
        · cases h₁
          exact .inl ⟨rfl, rfl, fun h => h.2.1 (List.length_eq_zero_iff.mp hempty)⟩
        · rw [Option.bind_eq_some_iff] at h₁
          obtain ⟨⟨res, out, es⟩, hsend, h₁⟩ := h₁
          have hne : s.frames ≠ [] := fun h => hempty (by rw [h]; rfl)
          rcases sendmmsgTcp_cases hsend with ⟨rfl, rfl, hfail⟩ |
            ⟨rfl, hnum, iov, ret, rest, hiov, hs, hpos, hret, hrest⟩
          · cases h₁
            refine .inl ⟨by simp, rfl, ?_⟩
            rintro ⟨-, -, iov, ret, out, es', hiov, hs, hpos, -⟩
            have := hfail iov _ hiov hs
            simp only at this
            omega
          · obtain ⟨new, hnew⟩ := foldl_enqueue arrived s.frames
            have htake : (s.frames ++ new).take (s.frames.take num).length = s.frames.take num := by
              rw [List.length_take, List.take_append_of_le_length (Nat.min_le_right _ _),
                ← List.take_eq_take_min]
            simp only [if_neg (Int.not_le.mpr hnum), Int.toNat_natCast, hnew, htake] at h₁
            cases h₁
            exact .inr ⟨arrived, events, iov, ret, out, es, rest, rfl, hres, hne, hiov, hs, hpos,
              hret, hrest, rfl, rfl, rfl⟩
      · cases h
        exact .inl ⟨rfl, rfl, fun h => hres h.1⟩

/-- Without a write that is cut short, the stream holds exactly the frames removed. -/
theorem step_exact (h : s.step num x = some s') (hx : ¬ CutShort num s x)
    (hs : s.stream = frameBytes s.removed) : s'.stream = frameBytes s'.removed := by
  obtain ⟨hstream, hremoved, -⟩ | ⟨arrived, events, iov, ret, out, es, rest, rfl, hres, hne, hiov,
    hsend, hpos, hret, hrest, hstream, hremoved, -⟩ := step_cases h
  · rw [hstream, hremoved, hs]
  · have hfull : iov.flatten.length ≤ out.length := by
      by_contra hlt
      exact hx ⟨hres, hne, iov, ret, out, es, hiov, hsend, hpos, by omega⟩
    have hrest' : rest = [] := by
      rw [hrest, List.length_append] at hfull
      exact List.length_eq_zero_iff.mp (by omega)
    rw [hrest', List.append_nil] at hrest
    rw [hstream, hremoved, frameBytes_append, hs, ← flatten_batchIov hiov, hrest]

/-- A write that is cut short leaves a stream that is not intact. -/
theorem not_intact_of_cutShort (h : s.step num x = some s') (hx : CutShort num s x)
    (hs : s.Intact) : ¬ s'.Intact := by
  obtain ⟨-, -, hno⟩ | ⟨arrived, events, iov, ret, out, es, rest, rfl, hres, -, hiov, hsend, -, hret,
    hrest, hstream, hremoved, -⟩ := step_cases h
  · exact absurd hx hno
  · obtain ⟨-, -, iov', ret', out', es', hiov', hsend', -, hlt⟩ := hx
    rw [hiov] at hiov'
    cases hiov'
    rw [hsend] at hsend'
    cases hsend'
    obtain ⟨piece, hpiece, htail⟩ := hs
    obtain rfl : piece = [] := by
      by_contra hp
      have := (htail hp).1
      omega
    rintro ⟨piece', hpiece', -⟩
    rw [hstream, hremoved, frameBytes_append, hpiece, ← flatten_batchIov hiov, List.append_nil,
      List.append_assoc] at hpiece'
    have := congrArg List.length (List.append_cancel_left hpiece')
    rw [List.length_append] at this
    omega

/-- A write that is not cut short writes all bytes if it returns the number of messages. -/
theorem fullWrite_of_not_cutShort (hx : ¬ CutShort num s x) : FullWrite num s x := by
  cases x with
  | arrive m => trivial
  | fwd arrived events =>
      intro hres hne out es hsend
      rcases sendmmsgTcp_cases hsend with ⟨hneg, -⟩ | ⟨-, -, iov, ret, rest, hiov, hs, hpos, hret, hrest⟩
      · omega
      · have hfull : iov.flatten.length ≤ out.length := by
          by_contra hlt
          exact hx ⟨hres, hne, iov, ret, out, es, hiov, hs, hpos, by omega⟩
        rw [hrest, List.length_append] at hfull
        rw [← flatten_batchIov hiov, hrest, List.length_eq_zero_iff.mp (by omega : rest.length = 0),
          List.append_nil]

end step

/-! ### Runs -/

/-- The stream of a session is intact in every state of a run, and every write that reports its
messages as sent has written them, exactly if no write of the run is cut short. -/
theorem run_intact_iff (num : ℕ) (xs : List Step) :
    (EveryState (step num) Intact init xs ∧ EveryStep (step num) (FullWrite num) init xs) ↔
      EveryStep (step num) (fun s x => ¬ CutShort num s x) init xs := by
  have hintact : ∀ {s : SessionUdp}, s.stream = frameBytes s.removed → s.Intact :=
    fun hs => ⟨[], by rw [hs, List.append_nil], by simp⟩
  rw [everyState_iff (fun s => s.stream = frameBytes s.removed) hintact
    (fun hs hstep hx => step_exact hstep hx hs)
    (fun hs hstep hx => not_intact_of_cutShort hstep hx (hintact hs)) rfl xs]
  exact and_iff_left_of_imp (EveryStep.imp fun hx => fullWrite_of_not_cutShort hx)

/-- One byte to port 53 of `10.0.0.1`, a frame of eleven bytes. -/
def sampleMsg : UdpMsg := ⟨some (addrFromIpv4 0x0a000001 53), [7]⟩

/-- The stream of a session whose only message is written in two pieces is intact. -/
theorem run_intact_sample :
    (init.run 10 [.arrive (sampleMsg, true), .fwd [] [.data 4, .again, .data 99]]).isSome ∧
      EveryState (step 10) Intact init
        [.arrive (sampleMsg, true), .fwd [] [.data 4, .again, .data 99]] := by
  refine ⟨rfl, ((run_intact_iff 10 _).mpr ?_).1⟩
  rintro s ⟨⟩
  refine ⟨id, ?_⟩
  rintro t -
  refine ⟨?_, trivial⟩
  rintro ⟨-, -, iov, ret, out, es, hiov, hsend, -, hlt⟩
  cases hiov
  cases hsend
  exact absurd hlt (by decide)

/-- A timeout after five bytes of a frame: the message counts as sent and is removed. -/
theorem run_cut_short : ∃ t,
    init.run 10 [.arrive (sampleMsg, true), .fwd [] [.data 4, .timeout]] = some t ∧
      t.resF = 1 ∧ t.removed = [sampleMsg] ∧ t.stream.length = 5 ∧ ¬ t.Intact := by
  obtain ⟨t, ht, hres, hremoved, hlen⟩ : ∃ t,
      init.run 10 [.arrive (sampleMsg, true), .fwd [] [.data 4, .timeout]] = some t ∧
        t.resF = 1 ∧ t.removed = [sampleMsg] ∧ t.stream.length = 5 := ⟨_, rfl, rfl, rfl, rfl⟩
  refine ⟨t, ht, hres, hremoved, hlen, ?_⟩
  rintro ⟨piece, hpiece, -⟩
  have hframe : (frameBytes [sampleMsg]).length = 11 := by decide
  rw [hpiece, hremoved, List.length_append, hframe] at hlen
  omega

end SessionUdp

end HevTunnel
