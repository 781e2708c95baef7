import HevTunnel.UDPCodec
import HevTunnel.Transition

/-! # The peer of a UDP association

In the UDP-in-UDP mode a server object does not know its client's address.  The first successful
`hev_socks5_udp_recvmmsg_udp` takes it from the first datagram it has received and connects the
socket to it; from then on the kernel delivers datagrams of this peer alone.

* `recvmmsgUdp` is the function, `UdpSocket` the object with the datagrams that are queued in the
  kernel and the messages that were returned so far.
* `UdpSocket.everyState_served_iff`: all messages come from the peer, exactly if no call that finds
  the object without a peer receives datagrams of different senders and returns them. -/

namespace HevTunnel

/-- A received datagram: its source, the buffer it was put into, and its length. -/
structure Packet where
  src : Sockaddr6
  buf : Mem
  len : ℕ

namespace Packet

/-- `hev_socks5_addr_len` of the address in the buffer.  It is computed before the length of the
datagram is looked at. -/
def addrlen (p : Packet) : Int := addrLen (p.buf 3) (p.buf 4)

/-- The bytes of the buffer from `i` to `j`. -/
def bytes (p : Packet) (i j : ℕ) : List Byte := (List.range (j - i)).map (fun k => p.buf (i + k))

/-- The message of a datagram with an address: the address and the payload. -/
def entry (p : Packet) : UdpEntry :=
  ⟨p.bytes 3 (3 + p.addrlen.toNat), p.bytes (3 + p.addrlen.toNat) p.len⟩

/-- The datagram does not make the call fail. -/
def Accepted (p : Packet) : Prop := p.len < 4 ∨ (0 < p.addrlen ∧ 3 + p.addrlen ≤ p.len)

instance (p : Packet) : Decidable p.Accepted :=
  inferInstanceAs (Decidable (p.len < 4 ∨ (0 < p.addrlen ∧ 3 + p.addrlen ≤ p.len)))

end Packet

/-- The loop of `hev_socks5_udp_recvmmsg_udp` over what was received, `none` if it returns `-1`.  A
datagram that is too short stays a message, without an address. -/
def udpEntries : List Packet → Option (List (Option UdpEntry))
  | [] => some []
  | p :: ps =>
      if p.len < 4 then (udpEntries ps).map (none :: ·)
      else if p.addrlen ≤ 0 then none
      else if 3 + p.addrlen > p.len then none
      else (udpEntries ps).map (some p.entry :: ·)

/-- `hev_socks5_udp_recvmmsg_udp`: the result, the messages and the peer that the object is then
associated with.  `res` and `mvec` are what `recvmmsg` gives, no datagram unless `0 < res`; `conn`
is whether `connect` succeeds. -/
def recvmmsgUdp (peer : Option Sockaddr6) (res : Int) (mvec : List Packet) (conn : Bool) :
    Int × List (Option UdpEntry) × Option Sockaddr6 :=
  match mvec with
  | [] => (res, [], peer)
  | p :: _ =>
      if peer = none ∧ conn = false then (-1, [], none)
      else
        let peer := peer.getD p.src
        match udpEntries mvec with
        | none => (-1, [], some peer)
        | some es => (res, es, some peer)

/-- The messages that are returned are one for each datagram, if all of them are accepted. -/
theorem udpEntries_cases (ps : List Packet) :
    (∃ es, udpEntries ps = some es ∧ es.length = ps.length ∧ ∀ p ∈ ps, p.Accepted) ∨
    (udpEntries ps = none ∧ ∃ p ∈ ps, ¬ p.Accepted) := by
  induction ps with
  | nil => exact .inl ⟨[], rfl, rfl, by simp⟩
  | cons p ps ih =>
      by_cases hp : p.Accepted
      · have hcons : ∃ e, udpEntries (p :: ps) = (udpEntries ps).map (e :: ·) := by
          rw [udpEntries]
          rcases hp with hp | ⟨hpos, hlen⟩
          · exact ⟨none, if_pos hp⟩
          · split_ifs with h₁ h₂ h₃
            · exact ⟨none, rfl⟩
            · omega
            · omega
            · exact ⟨some p.entry, rfl⟩
        obtain ⟨e, he⟩ := hcons
        rcases ih with ⟨es, hes, hlen, hall⟩ | ⟨hes, q, hq, hbad⟩
        · refine .inl ⟨e :: es, by rw [he, hes]; rfl, by simp [hlen], ?_⟩
          exact List.forall_mem_cons.mpr ⟨hp, hall⟩
        · exact .inr ⟨by rw [he, hes]; rfl, q, List.mem_cons_of_mem _ hq, hbad⟩
      · refine .inr ⟨?_, p, by simp, hp⟩
        simp only [Packet.Accepted, not_or, not_and, not_le] at hp
        rw [udpEntries, if_neg hp.1]
        split_ifs with h₁ h₂
        · rfl
        · rfl
        · have := hp.2 (by omega)
          omega

/-! ### The object and its socket -/

/-- The datagrams queued in the kernel, the peer of an associated object, and the messages returned
so far, each with its source. -/
structure UdpSocket where
  queue : List Packet
  peer : Option Sockaddr6
  returned : List (Sockaddr6 × Option UdpEntry)

namespace UdpSocket

/-- The object before its first call. -/
def init : UdpSocket := ⟨[], none, []⟩

/-- What the kernel delivers: once the socket is connected, the datagrams of the peer alone. -/
def deliverable (s : UdpSocket) : List Packet :=
  match s.peer with
  | none => s.queue
  | some a => s.queue.filter (fun p => p.src = a)

inductive Step where
  /-- A datagram arrives. -/
  | arrive (p : Packet)
  /-- A call for `num` messages.  The kernel hands over `got` datagrams; without any, `recvmmsg`
  returns `res`. -/
  | recv (num got : ℕ) (res : Int) (conn : Bool)

/-- A call that receives `batch`. -/
def receive (s : UdpSocket) (batch rest : List Packet) (res : Int) (conn : Bool) : UdpSocket :=
  let r := recvmmsgUdp s.peer (if batch = [] then res else (batch.length : Int)) batch conn
  { queue := rest
    peer := r.2.2
    returned := s.returned ++ (batch.map Packet.src).zip r.2.1 }

def step (s : UdpSocket) : Step → Option UdpSocket
  | .arrive p => some { s with queue := s.queue ++ [p] }
  | .recv num got res conn =>
      if 1 ≤ num ∧ got ≤ num ∧ got ≤ s.deliverable.length ∧ (got = 0 → res ≤ 0) then
        some (s.receive (s.deliverable.take got) (s.deliverable.drop got) res conn)
      else none

/-- All messages came from the address that the socket is connected to. -/
def Served (s : UdpSocket) : Prop := ∀ r ∈ s.returned, s.peer = some r.1

/-- The call associates the object, and returns a batch with datagrams of different senders. -/
def MixesSenders (s : UdpSocket) : Step → Prop
  | .arrive _ => False
  | .recv _ got _ conn => s.peer = none ∧ conn = true ∧ (∀ p ∈ s.queue.take got, p.Accepted) ∧
      ∃ p ∈ s.queue.take got, ∃ q ∈ s.queue.take got, p.src ≠ q.src

/-- What a call does to the peer and the messages. -/
theorem receive_cases (s : UdpSocket) (batch rest : List Packet) (res : Int) (conn : Bool) :
    ((s.receive batch rest res conn).returned = s.returned ∧
      ((s.receive batch rest res conn).peer = s.peer ∨ s.peer = none) ∧
      (batch = [] ∨ (s.peer = none ∧ conn = false) ∨ ∃ p ∈ batch, ¬ p.Accepted)) ∨
    (∃ p ps es, batch = p :: ps ∧ (s.peer = none → conn = true) ∧ (∀ q ∈ batch, q.Accepted) ∧
      (s.receive batch rest res conn).peer = some (s.peer.getD p.src) ∧ es.length = batch.length ∧
      (s.receive batch rest res conn).returned = s.returned ++ (batch.map Packet.src).zip es) := by
  cases batch with
  | nil => exact .inl ⟨by simp [receive], .inl rfl, .inl rfl⟩
  | cons p ps =>
      by_cases hconn : s.peer = none ∧ conn = false
      · refine .inl ⟨?_, .inr hconn.1, .inr (.inl hconn)⟩
        simp [receive, recvmmsgUdp, hconn]
      · rcases udpEntries_cases (p :: ps) with ⟨es, hes, hlen, hall⟩ | ⟨hes, hbad⟩
        · refine .inr ⟨p, ps, es, rfl, ?_, hall, ?_, hlen, ?_⟩
          · intro hpeer
            cases conn with
            | false => exact absurd ⟨hpeer, rfl⟩ hconn
            | true => rfl
          · simp only [receive, recvmmsgUdp, if_neg hconn, hes]
          · simp only [receive, recvmmsgUdp, if_neg hconn, hes]
        · refine .inl ⟨?_, ?_, .inr (.inr hbad)⟩
          · simp [receive, recvmmsgUdp, if_neg hconn, hes]
          · cases hpeer : s.peer with
            | none => exact .inr rfl
            | some a =>
                refine .inl ?_
                rw [hpeer] at hconn
                simp only [receive, recvmmsgUdp, hpeer, if_neg hconn, hes, Option.getD_some]

/-- Without a peer nothing has been returned. -/
theorem Served.returned_eq_nil {s : UdpSocket} (h : s.Served) (hpeer : s.peer = none) :
    s.returned = [] := by
  rw [List.eq_nil_iff_forall_not_mem]
  intro r hr
  have := h r hr
  rw [hpeer] at this
  cases this

/-- A batch whose datagrams come from the peer keeps all messages the peer's. -/
theorem Served.receive {s : UdpSocket} (h : s.Served) {batch rest : List Packet} {res : Int}
    {conn : Bool} (hsrc : ∀ p ps, batch = p :: ps → (s.peer = none → conn = true) →
      (∀ q ∈ batch, q.Accepted) → ∀ q ∈ batch, q.src = s.peer.getD p.src) :
    (s.receive batch rest res conn).Served := by
  rcases s.receive_cases batch rest res conn with ⟨hret, hpeer, -⟩ |
    ⟨p, ps, es, hbatch, hconn, hacc, hpeer, -, hret⟩
  · intro r hr
    rw [hret] at hr
    rcases hpeer with hpeer | hpeer
    · rw [hpeer]
      exact h r hr
    · rw [h.returned_eq_nil hpeer] at hr
      cases hr
  · intro r hr
    rw [hpeer]
    rw [hret, List.mem_append] at hr
    rcases hr with hr | hr
    · rw [h r hr]
      rfl
    · obtain ⟨q, hq, hqr⟩ := List.mem_map.mp (List.of_mem_zip (a := r.1) (b := r.2) hr).1
      rw [← hqr, hsrc p ps hbatch hconn hacc q hq]

theorem Served.step {s s' : UdpSocket} {x : Step} (h : s.Served) (hs : step s x = some s')
    (hx : ¬ MixesSenders s x) : s'.Served := by
  cases x with
  | arrive p =>
      cases hs
      exact h
  | recv num got res conn =>
      simp only [UdpSocket.step] at hs
      split_ifs at hs
      cases hs
      apply h.receive
      intro p ps hbatch hconn hacc q hq
      cases hpeer : s.peer with
      | some a =>
          -- the kernel has filtered
          simp only [deliverable, hpeer] at hq
          simpa using (List.mem_filter.mp (List.mem_of_mem_take hq)).2
      | none =>
          simp only [deliverable, hpeer] at hbatch hacc hq
          by_contra hne
          exact hx ⟨hpeer, hconn hpeer, hacc, q, hq, p, by simp [hbatch], hne⟩

/-- A batch of different senders is not served to one peer. -/
theorem not_served_of_mixes {s s' : UdpSocket} {x : Step} (hs : step s x = some s')
    (hx : MixesSenders s x) : ¬ s'.Served := by
  cases x with
  | arrive p => exact hx.elim
  | recv num got res conn =>
      obtain ⟨hpeer, hconn, hacc, q₁, hq₁, q₂, hq₂, hne⟩ := hx
      simp only [UdpSocket.step] at hs
      split_ifs at hs
      cases hs
      simp only [deliverable, hpeer]
      intro hserved
      rcases s.receive_cases (s.queue.take got) (s.queue.drop got) res conn with
        ⟨-, -, hnil | ⟨-, hfail⟩ | ⟨p, hp, hbad⟩⟩ | ⟨p, ps, es, -, -, -, -, hlen, hret⟩
      · rw [hnil] at hq₁
        cases hq₁
      · rw [hconn] at hfail
        cases hfail
      · exact hbad (hacc p hp)
      · have hall : ∀ q ∈ s.queue.take got,
            (s.receive (s.queue.take got) (s.queue.drop got) res conn).peer = some q.src := by
          intro q hq
          have hsrc : q.src ∈ (((s.queue.take got).map Packet.src).zip es).map Prod.fst := by
            rw [List.map_fst_zip (by simp [hlen])]
            exact List.mem_map_of_mem hq
          obtain ⟨r, hr, hrq⟩ := List.mem_map.mp hsrc
          rw [← hrq]
          apply hserved r
          rw [hret]
          exact List.mem_append_right _ hr
        exact hne (Option.some.inj ((hall q₁ hq₁).symm.trans (hall q₂ hq₂)))

/-- Over all calls and all arrivals, the messages come from the one peer that the socket is
connected to exactly if no call associates the object while it returns datagrams of different
senders. -/
theorem everyState_served_iff (xs : List Step) :
    EveryState step Served init xs ↔ EveryStep step (fun s x => ¬ MixesSenders s x) init xs := by
  apply everyState_iff Served
  · exact fun h => h
  · exact fun h hs hx => h.step hs hx
  · exact fun _ hs hx => not_served_of_mixes hs hx
  · intro r hr
    cases hr

/-- An empty request to an IPv4 address, from a port of `::`. -/
def samplePacket (port : UInt16) : Packet :=
  ⟨⟨Vector.replicate 16 0, port⟩, fun i => if i = 3 then 1 else 0, 11⟩

/-- Two clients are served by one object when their first datagrams are received together. -/
theorem two_senders_served :
    ∃ s r₁ r₂, runSteps step init
      [.arrive (samplePacket 1), .arrive (samplePacket 2), .recv 2 2 0 true] = some s ∧
      r₁ ∈ s.returned ∧ r₂ ∈ s.returned ∧ s.peer = some r₁.1 ∧ s.peer ≠ some r₂.1 := by
  have hrun : ((runSteps step init
      [.arrive (samplePacket 1), .arrive (samplePacket 2), .recv 2 2 0 true]).any (fun s =>
        s.returned.any (fun r₁ => s.returned.any (fun r₂ =>
          s.peer = some r₁.1 ∧ s.peer ≠ some r₂.1)))) = true := by
    decide +kernel
  simp only [Option.any_eq_true, List.any_eq_true, decide_eq_true_eq] at hrun
  obtain ⟨s, hs, r₁, h₁, r₂, h₂, hpeer, hne⟩ := hrun
  exact ⟨s, r₁, r₂, hs, h₁, h₂, hpeer, hne⟩

end UdpSocket

end HevTunnel
