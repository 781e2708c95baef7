import HevTunnel.FrameQueue
import HevTunnel.MappedDNS

/-! # Datagrams in several buffers

lwIP passes a datagram as a chain of buffers, and a datagram that was reassembled from fragments has
one buffer for each fragment.  `hev_socks5_session_udp_fwd_f` and `dns_recv_handler` take the payload
and the length of the first buffer.

`wholeRelayed_iff`: a datagram is relayed whole exactly if the other buffers of its chain are
empty. -/

namespace HevTunnel

namespace UdpFrame

/-- `frame->data`, the first buffer of the chain. -/
def first (f : UdpFrame) : Pbuf := f.data.head f.full

/-- The message of `msgv` that is set from the frame. -/
def msg (f : UdpFrame) : UdpMsg := ⟨f.addr, f.first.payload⟩

/-- The frame of a datagram in segments. -/
def ofSegments (addr : Option Addr) (seg : List Byte) (segs : List (List Byte)) : UdpFrame :=
  ⟨addr, Pbuf.chain (seg :: segs), by simp [Pbuf.chain]⟩

@[simp] theorem buf_msg_ofSegments (addr : Option Addr) (seg : List Byte) (segs : List (List Byte)) :
    (ofSegments addr seg segs).msg.buf = seg :=
  rfl

end UdpFrame

/-- The request that `dns_recv_handler` passes on: the memory at `p->payload`, and `p->len`. -/
def dnsRequest (p : Pbuf) (beyond : Mem) : Mem × ℕ := (fun i => p.payload.getD i (beyond i), p.len)

/-- `dns_recv_handler` with the datagram whose first buffer is `p`; `b` is the buffer for the
response, if there is one. -/
def dnsRecvHandler (dns : MappedDNS) (p : Pbuf) (beyond : Mem) (b : Option Mem) (alloc : ℕ → Alloc) :
    Option (MappedDNS × Option (Mem × ℕ)) :=
  match b with
  | none => some (dns, none)
  | some b => do
      let r ← dns.handle (dnsRequest p beyond).1 (dnsRequest p beyond).2 b udpBufSize alloc
      pure (r.self, r.res)

/-- The bytes of the request. -/
theorem dnsRequest_bytes (p : Pbuf) (beyond : Mem) :
    (List.range (dnsRequest p beyond).2).map (dnsRequest p beyond).1 = p.payload := by
  apply List.ext_getElem
  · simp [dnsRequest, Pbuf.len]
  · intro i _ hi
    simp [dnsRequest, hi]

/-- Whenever a batch is sent, the message of a frame with the segments holds all of them, and a query
in these segments is handed to the mapped DNS whole. -/
structure WholeRelayed (seg : List Byte) (segs : List (List Byte)) : Prop where
  session : ∀ xs q b f, runSteps FrameQueue.step .init xs = some q → q.batch = some b → f ∈ b →
    f.data = Pbuf.chain (seg :: segs) → f.msg.buf = (seg :: segs).flatten
  dns : ∀ p rest beyond, Pbuf.chain (seg :: segs) = p :: rest →
    (List.range (dnsRequest p beyond).2).map (dnsRequest p beyond).1 = (seg :: segs).flatten

/-- The first frame that arrives is the batch of the next call. -/
theorem runSteps_arrive_send (f : UdpFrame) :
    ∃ q, runSteps FrameQueue.step .init [.arrive f (some 0), .send 1] = some q ∧
      q.batch = some [f] := by
  have hinv := FrameQueue.inv_init.accept (p := 0) rfl f (by simp)
  refine ⟨_, runSteps_cons_eq_some.mpr ⟨_, rfl, runSteps_cons_eq_some.mpr
    ⟨_, hinv.fwdFSend_eq 1, rfl⟩⟩, ?_⟩
  rfl

/-- For every datagram in any number of segments: it is relayed whole exactly if there are no bytes
behind its first segment. -/
theorem wholeRelayed_iff (seg : List Byte) (segs : List (List Byte)) :
    WholeRelayed seg segs ↔ segs.flatten = [] := by
  constructor
  · intro h
    obtain ⟨q, hq, hbatch⟩ := runSteps_arrive_send (.ofSegments none seg segs)
    have hbuf := h.session _ q _ _ hq hbatch (List.mem_singleton_self _) rfl
    rw [UdpFrame.buf_msg_ofSegments, List.flatten_cons] at hbuf
    exact List.append_right_eq_self.mp hbuf.symm
  · intro h
    have hflat : (seg :: segs).flatten = seg := by rw [List.flatten_cons, h, List.append_nil]
    refine ⟨?_, ?_⟩
    · rintro xs q b ⟨addr, data, full⟩ - - - rfl
      rw [hflat]
      rfl
    · intro p rest beyond hp
      obtain ⟨rfl, -⟩ := List.cons.inj hp
      rw [dnsRequest_bytes, hflat]

/-- Of a datagram in two fragments of two bytes, two bytes are sent. -/
theorem second_fragment_lost :
    (∃ q, runSteps FrameQueue.step .init
        [.arrive (.ofSegments none [1, 2] [[3, 4]]) (some 0), .send 1] = some q ∧
      q.batch = some [.ofSegments none [1, 2] [[3, 4]]]) ∧
    (UdpFrame.ofSegments none [1, 2] [[3, 4]]).msg.buf = [1, 2] ∧
    ¬ WholeRelayed [1, 2] [[3, 4]] := by
  refine ⟨runSteps_arrive_send _, rfl, ?_⟩
  intro h
  have := h.dns ⟨[1, 2], 4⟩ (Pbuf.chain [[3, 4]]) (fun _ => 0) rfl
  rw [dnsRequest_bytes] at this
  cases this

end HevTunnel
