import HevTunnel.MappedDNSLookup
import HevTunnel.SessionUDP
import HevTunnel.Transition

/-! # The source addresses of UDP replies

One session receives all datagrams of one application socket.  `udp_recv_handler` queues them under
their destinations and remembers the last destination that the mapped DNS cache has a name for.
`hev_socks5_session_udp_fwd_b` injects the replies of the relay.  It takes the source of a reply
from the reply, or, once there is one, the destination that was remembered.

* `LwipAddr` is `ip_addr_t` as it lies in memory: a union and a type.  The variable that
  `hev_socks5_session_udp_fwd_b` fills is not initialised, so what it injects is a function of the
  previous contents.
* `ReplySession.Attributed` says of every reply injected so far that it has the right source.
* `everyState_attributed_iff`: it holds all along a run exactly if no reply is injected while a
  mapped destination is remembered. -/

namespace HevTunnel

/-! ### Addresses of the stack in memory -/

/-- `ip_addr_t`: the bytes of the union and the type.  The zone of an IPv6 address is not part of
the address that goes into a packet and is left out. -/
structure LwipAddr where
  ip : Vector Byte 16
  type : Byte
deriving DecidableEq

/-- The IPv4 address in four bytes. -/
def ipv4Of (addr : Vector Byte 4) : BitVec 32 :=
  BitVec.ofNat 32
    ((addr.toList.getD 0 0).toNat * 2 ^ 24 + (addr.toList.getD 1 0).toNat * 2 ^ 16 +
      (addr.toList.getD 2 0).toNat * 2 ^ 8 + (addr.toList.getD 3 0).toNat)

theorem ipv4Of_ipv4Bytes (ip : BitVec 32) : ipv4Of (ipv4Bytes ip) = ip := by
  have hlt := ip.isLt
  apply BitVec.eq_of_toNat_eq
  have h₀ : (ipv4Bytes ip).toList.getD 0 0 = UInt8.ofNat (ip.toNat / 2 ^ 24) := rfl
  have h₁ : (ipv4Bytes ip).toList.getD 1 0 = UInt8.ofNat (ip.toNat / 2 ^ 16) := rfl
  have h₂ : (ipv4Bytes ip).toList.getD 2 0 = UInt8.ofNat (ip.toNat / 2 ^ 8) := rfl
  have h₃ : (ipv4Bytes ip).toList.getD 3 0 = UInt8.ofNat ip.toNat := rfl
  simp only [ipv4Of, h₀, h₁, h₂, h₃, BitVec.toNat_ofNat, UInt8.toNat_ofNat']
  omega

namespace LwipAddr

/-- `ip_2_ip4`, the first four bytes of the union. -/
def ip4 (a : LwipAddr) : Vector Byte 4 := #v[a.ip[0], a.ip[1], a.ip[2], a.ip[3]]

/-- The address that the type selects: `IPADDR_TYPE_V4` is 0, `IPADDR_TYPE_V6` is 6 and
`IPADDR_TYPE_ANY` is 46. -/
def value (a : LwipAddr) : Option IpAddr :=
  if a.type = 0 then some (.v4 (ipv4Of a.ip4))
  else if a.type = 6 then some (.v6 a.ip)
  else if a.type = 46 then some .any
  else none

/-- `ip_2_ip4 (&ip)->addr = addr`, which leaves the rest of the union and the type alone. -/
def setIp4 (a : LwipAddr) (addr : Vector Byte 4) : LwipAddr :=
  { a with ip := Vector.ofFn (fun i : Fin 16 => if h : i.val < 4 then addr[i.val] else a.ip[i]) }

@[simp] theorem ip4_setIp4 (a : LwipAddr) (addr : Vector Byte 4) : (a.setIp4 addr).ip4 = addr := by
  apply Vector.ext
  intro i hi
  match i, hi with
  | 0, _ => simp [ip4, setIp4]
  | 1, _ => simp [ip4, setIp4]
  | 2, _ => simp [ip4, setIp4]
  | 3, _ => simp [ip4, setIp4]

theorem value_v4 {a : LwipAddr} (h : a.type = 0) {ip : BitVec 32} (hip : a.ip4 = ipv4Bytes ip) :
    a.value = some (.v4 ip) := by
  rw [value, if_pos h, hip, ipv4Of_ipv4Bytes]

theorem value_v6 {a : LwipAddr} (h : a.type = 6) : a.value = some (.v6 a.ip) := by
  rw [value, h]
  rfl

end LwipAddr

/-- `hev_socks5_addr_into_lwip` on the memory of a SOCKS address: the address as a function of what
was there before, and the port. -/
def addrIntoLwip (m : Mem) : Option ((LwipAddr → LwipAddr) × UInt16) :=
  if m 0 = 1 then
    some (fun a => { a.setIp4 #v[m 1, m 2, m 3, m 4] with type := 0 }, portOf [m 5, m 6])
  else if m 0 = 4 then
    some (fun _ => ⟨Vector.ofFn (fun i : Fin 16 => m (1 + i)), 6⟩, portOf [m 17, m 18])
  else none

/-- The SOCKS address of an address and a port. -/
def socksAddr : IpAddr → UInt16 → Option Addr
  | .v4 ip, port => some (addrFromIpv4 ip port)
  | .v6 ip, port => some (addrFromIpv6 ip port)
  | .any, _ => none

/-- The bytes of an address lie in memory. -/
def Holds (m : Mem) (a : Addr) : Prop := ∀ i < a.len, a.bytes[i]? = some (m i)

instance (m : Mem) (a : Addr) : Decidable (Holds m a) :=
  inferInstanceAs (Decidable (∀ i < a.len, a.bytes[i]? = some (m i)))

theorem portOf_holds {m : Mem} {port : UInt16} {i : ℕ}
    (h₀ : (portBytes port)[0]? = some (m i)) (h₁ : (portBytes port)[1]? = some (m (i + 1))) :
    portOf [m i, m (i + 1)] = port := by
  have hbytes : portBytes port = [m i, m (i + 1)] := by
    rw [portBytes] at h₀ h₁ ⊢
    rw [Option.some.inj h₀, Option.some.inj h₁]
  rw [← hbytes, portOf_portBytes]

theorem addrIntoLwip_of_holds_v4 {m : Mem} {ip : BitVec 32} {port : UInt16}
    (hm : Holds m (addrFromIpv4 ip port)) :
    ∃ src, addrIntoLwip m = some (src, port) ∧ ∀ g, (src g).value = some (.v4 ip) := by
  replace hm : ∀ i < 7, (addrFromIpv4 ip port).bytes[i]? = some (m i) := hm
  have h₀ : m 0 = 1 := (Option.some.inj (hm 0 (by decide))).symm
  have hport : portOf [m 5, m 6] = port :=
    portOf_holds (hm 5 (by decide)) (hm 6 (by decide))
  have hip : #v[m 1, m 2, m 3, m 4] = ipv4Bytes ip := by
    have h₁ := Option.some.inj (hm 1 (by decide))
    have h₂ := Option.some.inj (hm 2 (by decide))
    have h₃ := Option.some.inj (hm 3 (by decide))
    have h₄ := Option.some.inj (hm 4 (by decide))
    rw [← h₁, ← h₂, ← h₃, ← h₄]
    rfl
  refine ⟨fun a => { a.setIp4 #v[m 1, m 2, m 3, m 4] with type := 0 }, ?_, ?_⟩
  · rw [addrIntoLwip, if_pos h₀, hport]
  · intro g
    apply LwipAddr.value_v4 rfl
    rw [← hip]
    exact g.ip4_setIp4 _

theorem addrIntoLwip_of_holds_v6 {m : Mem} {ip : Vector Byte 16} {port : UInt16}
    (hm : Holds m (addrFromIpv6 ip port)) :
    ∃ src, addrIntoLwip m = some (src, port) ∧ ∀ g, (src g).value = some (.v6 ip) := by
  replace hm : ∀ i < 19, (addrFromIpv6 ip port).bytes[i]? = some (m i) := hm
  have h₀ : m 0 = 4 := (Option.some.inj (hm 0 (by decide))).symm
  have hbyte : ∀ i (hi : i < 16), m (1 + i) = ip[i] := by
    intro i hi
    have h := hm (i + 1) (by omega)
    rw [addrFromIpv6, Addr.bytes, List.getElem?_cons_succ,
      List.getElem?_append_left (by simpa using hi)] at h
    rw [Nat.add_comm]
    apply Option.some.inj
    rw [← h]
    simp [hi]
  have hport : portOf [m 17, m 18] = port := by
    have h₁ := hm 17 (by decide)
    have h₂ := hm 18 (by decide)
    apply portOf_holds
    · rw [← h₁]
      simp [addrFromIpv6, Addr.bytes]
    · rw [← h₂]
      simp [addrFromIpv6, Addr.bytes]
  have hip : Vector.ofFn (fun i : Fin 16 => m (1 + i)) = ip := by
    apply Vector.ext
    intro i hi
    rw [Vector.getElem_ofFn]
    exact hbyte i hi
  refine ⟨fun _ => ⟨Vector.ofFn (fun i : Fin 16 => m (1 + i)), 6⟩, ?_, ?_⟩
  · rw [addrIntoLwip, h₀, hport]
    rfl
  · intro _
    rw [hip]
    exact LwipAddr.value_v6 rfl

/-- The destination of a SOCKS address is read back, whatever the variable held. -/
theorem addrIntoLwip_of_holds {m : Mem} {ip : IpAddr} {port : UInt16} {a : Addr}
    (ha : socksAddr ip port = some a) (hm : Holds m a) :
    ∃ src, addrIntoLwip m = some (src, port) ∧ ∀ g, (src g).value = some ip := by
  cases ip with
  | v4 ip =>
      cases ha
      exact addrIntoLwip_of_holds_v4 hm
  | v6 ip =>
      cases ha
      exact addrIntoLwip_of_holds_v6 hm
  | any => cases ha

/-! ### The session -/

/-- A reply that was given to `udp_sendfrom`. -/
structure Injection where
  /-- The memory at the address of the message. -/
  reply : Mem
  /-- The ordinary destinations of the application up to then. -/
  sent : List (IpAddr × UInt16)
  /-- The mapped address that was taken for the source. -/
  mapped : Option (BitVec 32)
  /-- The source, as a function of the previous contents of the variable. -/
  source : LwipAddr → LwipAddr
  port : UInt16

/-- A session with the cache it shares, and what has been sent and injected so far. -/
structure ReplySession where
  frames : List UdpMsg
  /-- `self->addr` in host order. -/
  addr : BitVec 32
  port : UInt16
  /-- The messages that the relay has sent and that have not been injected yet. -/
  batch : List Mem
  /-- The last result of `hev_socks5_session_udp_fwd_b`. -/
  resB : Int
  dns : Option MappedDNS
  sent : List (IpAddr × UInt16)
  injected : List Injection

/-- An address of the mapped network that a name is cached for. -/
def isMapped (dns : Option MappedDNS) : IpAddr → Bool
  | .v4 ip => dns.any (fun d => ip &&& d.mask == d.net && ((d.lookup ip).bind Prod.snd).isSome)
  | _ => false

namespace ReplySession

def init (dns : Option MappedDNS) : ReplySession := ⟨[], 0, 0, [], 1, dns, [], []⟩

/-- The application has sent a datagram. -/
def noteSent (s : ReplySession) (ip : IpAddr) (port : UInt16) : ReplySession :=
  if isMapped s.dns ip then s else { s with sent := s.sent ++ [(ip, port)] }

/-- What `udp_recv_handler` remembers of a destination. -/
def remember (s : ReplySession) (ip : IpAddr) (port : UInt16) (addr : Addr) : ReplySession :=
  match ip, addr with
  | .v4 ip, .name .. => { s with addr := ip, port := port }
  | _, _ => s

/-- `udp_recv_handler` with a datagram for `ip`, which `udp_input` has stored in the `pcb`; `alloc`
is whether a frame can be allocated.  No datagram has a destination of the type `IPADDR_TYPE_ANY`. -/
def recvHandler (s : ReplySession) (ip : IpAddr) (port : UInt16) (buf : List Byte) (beyond : ℕ)
    (alloc : Bool) : Option ReplySession :=
  if s.frames.length > udpPoolSize then some s
  else if !alloc then some s
  else do
    let (dns, addr) ← addrFromLwip s.dns ip port beyond
    let addr ← addr
    let s := s.remember ip port addr
    pure { s with dns := dns, frames := s.frames ++ [⟨some addr, buf⟩] }

/-- The session remembers a mapped destination: `self->addr && self->port`. -/
def Remembers (s : ReplySession) : Prop := s.addr ≠ 0 ∧ s.port ≠ 0

instance (s : ReplySession) : Decidable s.Remembers := inferInstanceAs (Decidable (_ ∧ _))

/-- The source that `hev_socks5_session_udp_fwd_b` chooses for a message, if it has one. -/
def source (s : ReplySession) (m : Mem) : Option ((LwipAddr → LwipAddr) × UInt16) :=
  if s.Remembers then some (fun a => a.setIp4 (ipv4Bytes s.addr), s.port) else addrIntoLwip m

/-- The loop of `hev_socks5_session_udp_fwd_b` ends with `-1`. -/
def failBack (s : ReplySession) : ReplySession := { s with batch := [], resB := -1 }

/-- One round of the loop of `hev_socks5_session_udp_fwd_b`.  `alloc` is whether there is a buffer,
`ok` the result of `udp_sendfrom`. -/
def inject (s : ReplySession) (alloc ok : Bool) : Option ReplySession :=
  match s.batch with
  | [] => none
  | m :: rest =>
      match s.source m with
      | none => some s.failBack
      | some (src, port) =>
          if !alloc then some s.failBack
          else
            let inj : Injection :=
              ⟨m, s.sent, if s.Remembers then some s.addr else none, src, port⟩
            let s := { s with batch := rest, injected := s.injected ++ [inj] }
            some (if ok then s else s.failBack)

/-- What can happen to a session. -/
inductive Step where
  /-- The application sends a datagram. -/
  | arrive (ip : IpAddr) (port : UInt16) (buf : List Byte) (beyond : ℕ) (alloc : Bool)
  /-- Somebody else uses the mapped DNS cache. -/
  | dns (alloc : ℕ → Alloc) (c : MappedDNS.Call)
  /-- `hev_socks5_session_udp_fwd_f` has sent `n` messages. -/
  | forward (n : ℕ)
  /-- `hev_socks5_udp_recvmmsg` returns messages, or fails for good. -/
  | receive (msgs : List Mem)
  | fail
  /-- The next message is injected. -/
  | inject (alloc ok : Bool)

def step (s : ReplySession) : Step → Option ReplySession
  | .arrive ip port buf beyond alloc => (s.noteSent ip port).recvHandler ip port buf beyond alloc
  | .dns alloc c =>
      match s.dns with
      | none => some s
      | some d => (d.call alloc c).map (fun d => { s with dns := some d })
  | .forward n => some { s with frames := s.frames.drop n }
  | .receive msgs => if s.batch = [] ∧ 0 ≤ s.resB then some { s with batch := msgs } else none
  | .fail => if s.batch = [] then some s.failBack else none
  | .inject alloc ok => s.inject alloc ok

end ReplySession

/-! ### The property -/

/-- A reply from an ordinary destination of the application has that source, and a reply from a
mapped address has that IPv4 address, whatever the variable held before. -/
structure Injection.Attributed (i : Injection) : Prop where
  ordinary : ∀ ip port a, socksAddr ip port = some a → Holds i.reply a → (ip, port) ∈ i.sent →
    i.port = port ∧ ∀ g, (i.source g).value = some ip
  mapped : ∀ ip, i.mapped = some ip → ∀ g, (i.source g).value = some (.v4 ip)

namespace ReplySession

def Attributed (s : ReplySession) : Prop := ∀ i ∈ s.injected, i.Attributed

/-- A reply is injected while a mapped destination is remembered. -/
def Misdirects (s : ReplySession) : Step → Prop
  | .inject alloc _ => s.batch ≠ [] ∧ alloc = true ∧ s.Remembers
  | _ => False

section step
variable {s s' : ReplySession} {x : Step}

theorem injected_recvHandler {ip : IpAddr} {port : UInt16} {buf : List Byte} {beyond : ℕ}
    {alloc : Bool} (h : s.recvHandler ip port buf beyond alloc = some s') :
    s'.injected = s.injected := by
  unfold recvHandler at h
  split_ifs at h
  · cases h
    rfl
  · cases h
    rfl
  · simp only [Option.bind_eq_bind, Option.bind_eq_some_iff, Option.pure_def,
      Option.some.injEq] at h
    obtain ⟨⟨dns, _⟩, -, addr, -, rfl⟩ := h
    show (s.remember ip port addr).injected = s.injected
    unfold remember
    split <;> rfl

/-- What a step can do to the replies: nothing, or inject the next message. -/
theorem step_cases (h : s.step x = some s') :
    (s'.injected = s.injected ∧ ¬ s.Misdirects x) ∨
    (∃ ok m rest src port, x = .inject true ok ∧ s.batch = m :: rest ∧
      s.source m = some (src, port) ∧
      s'.injected = s.injected ++
        [⟨m, s.sent, if s.Remembers then some s.addr else none, src, port⟩]) := by
  cases x with
  | arrive ip port buf beyond alloc =>
      refine .inl ⟨?_, id⟩
      rw [injected_recvHandler h]
      unfold noteSent
      split <;> rfl
  | dns alloc c =>
      refine .inl ⟨?_, id⟩
      simp only [step] at h
      split at h
      · cases h
        rfl
      · rw [Option.map_eq_some_iff] at h
        obtain ⟨d, -, rfl⟩ := h
        rfl
  | forward n =>
      cases h
      exact .inl ⟨rfl, id⟩
  | receive msgs =>
      simp only [step] at h
      split_ifs at h
      cases h
      exact .inl ⟨rfl, id⟩
  | fail =>
      simp only [step] at h
      split_ifs at h
      cases h
      exact .inl ⟨rfl, id⟩
  | inject alloc ok =>
      simp only [step, inject] at h
      split at h
      · cases h
      · rename_i m rest hbatch
        split at h
        · rename_i hsrc
          cases h
          refine .inl ⟨rfl, ?_⟩
          rintro ⟨-, -, hrem⟩
          rw [source, if_pos hrem] at hsrc
          cases hsrc
        · rename_i src port hsrc
          cases alloc with
          | false =>
              cases h
              exact .inl ⟨rfl, by simp [Misdirects]⟩
          | true =>
              cases h
              refine .inr ⟨ok, m, rest, src, port, rfl, hbatch, hsrc, ?_⟩
              cases ok <;> rfl

/-- A message with a source of its own is attributed to it. -/
theorem attributed_of_not_remembers (hrem : ¬ s.Remembers) {m : Mem} {src : LwipAddr → LwipAddr}
    {port : UInt16} (hsrc : s.source m = some (src, port)) :
    Injection.Attributed ⟨m, s.sent, if s.Remembers then some s.addr else none, src, port⟩ := by
  rw [source, if_neg hrem] at hsrc
  constructor
  · intro ip port' a ha hm _
    obtain ⟨src', hinto, hvalue⟩ := addrIntoLwip_of_holds ha hm
    rw [hsrc] at hinto
    cases hinto
    exact ⟨rfl, hvalue⟩
  · intro ip hip
    rw [if_neg hrem] at hip
    cases hip

/-- The type of the variable is not set, so that a mapped address is not one for every type that
was there. -/
theorem not_attributed_of_remembers (hrem : s.Remembers) {m : Mem} {src : LwipAddr → LwipAddr}
    {port : UInt16} (hsrc : s.source m = some (src, port)) :
    ¬ Injection.Attributed ⟨m, s.sent, if s.Remembers then some s.addr else none, src, port⟩ := by
  intro h
  rw [source, if_pos hrem] at hsrc
  obtain ⟨rfl, rfl⟩ := Prod.mk.inj (Option.some.inj hsrc)
  have hvalue := h.mapped s.addr (if_pos hrem) ⟨Vector.replicate 16 0, 6⟩
  rw [LwipAddr.value_v6 rfl] at hvalue
  cases hvalue

theorem attributed_step (hs : s.Attributed) (h : s.step x = some s') (hx : ¬ s.Misdirects x) :
    s'.Attributed := by
  obtain ⟨hinj, -⟩ | ⟨ok, m, rest, src, port, rfl, hbatch, hsrc, hinj⟩ := step_cases h
  · unfold Attributed
    rw [hinj]
    exact hs
  · have hrem : ¬ s.Remembers := by
      intro hrem
      apply hx
      exact ⟨by rw [hbatch]; exact List.cons_ne_nil _ _, rfl, hrem⟩
    intro i hi
    rw [hinj] at hi
    rcases List.mem_append.mp hi with hi | hi
    · exact hs i hi
    · rw [List.mem_singleton.mp hi]
      exact attributed_of_not_remembers hrem hsrc

theorem not_attributed_step (h : s.step x = some s') (hx : s.Misdirects x) : ¬ s'.Attributed := by
  obtain ⟨-, hno⟩ | ⟨ok, m, rest, src, port, rfl, -, hsrc, hinj⟩ := step_cases h
  · exact absurd hx hno
  · intro hs
    apply not_attributed_of_remembers hx.2.2 hsrc
    apply hs
    rw [hinj]
    exact List.mem_append_right _ (List.mem_singleton_self _)

end step

/-- For every cache and every order of datagrams and replies: all replies have the right source
exactly if none is injected while a mapped destination is remembered. -/
theorem everyState_attributed_iff (dns : Option MappedDNS) (xs : List Step) :
    EveryState step Attributed (init dns) xs ↔
      EveryStep step (fun s x => ¬ s.Misdirects x) (init dns) xs := by
  apply everyState_iff Attributed id
  · intro s x s' hs h hx
    exact attributed_step hs h hx
  · intro s x s' _ h hx
    exact not_attributed_step h hx
  · intro i hi
    cases hi

/-! ### A session that is misled -/

/-- A cache that maps one name to `100.64.0.0`. -/
def sampleCache : Option MappedDNS := do
  let d ← MappedDNS.construct 0x64400000#32 0xffc00000#32 4
  let (d, _) ← d.find ⟨[97], by decide⟩ .ok
  pure d

/-- A reply from port 53 of `8.8.8.8`. -/
def sampleReply : Mem := fun i => (addrFromIpv4 0x08080808#32 53).bytes.getD i 0

/-- Datagrams to the mapped address and to `8.8.8.8`, and a reply from the latter. -/
def sampleSteps : List Step :=
  [.arrive (.v4 0x64400000#32) 5000 [] 0 true, .arrive (.v4 0x08080808#32) 53 [] 0 true,
    .receive [sampleReply], .inject true true]

/-- The reply has the mapped address and port for its source, and the type that was there before. -/
theorem reply_from_mapped_address : ∃ t i, runSteps step (init sampleCache) sampleSteps = some t ∧
    i ∈ t.injected ∧ Holds i.reply (addrFromIpv4 0x08080808#32 53) ∧
    (.v4 0x08080808#32, 53) ∈ i.sent ∧ i.port = 5000 ∧
    (i.source ⟨Vector.replicate 16 0, 0⟩).value = some (.v4 0x64400000#32) ∧
    (i.source ⟨Vector.replicate 16 0, 6⟩).value ≠ some (.v4 0x64400000#32) ∧ ¬ t.Attributed := by
  have hrun : ((runSteps step (init sampleCache) sampleSteps).any (fun t => t.injected.any (fun i =>
      Holds i.reply (addrFromIpv4 0x08080808#32 53) ∧ (.v4 0x08080808#32, 53) ∈ i.sent ∧
      i.port = 5000 ∧ (i.source ⟨Vector.replicate 16 0, 0⟩).value = some (.v4 0x64400000#32) ∧
      (i.source ⟨Vector.replicate 16 0, 6⟩).value ≠ some (.v4 0x64400000#32)))) = true := by
    decide +kernel
  simp only [Option.any_eq_true, List.any_eq_true, decide_eq_true_eq] at hrun
  obtain ⟨t, ht, i, hi, hreply, hsent, hport, h₀, h₆⟩ := hrun
  refine ⟨t, i, ht, hi, hreply, hsent, hport, h₀, h₆, ?_⟩
  intro hs
  have hport' := ((hs i hi).ordinary _ _ _ rfl hreply hsent).1
  rw [hport] at hport'
  exact absurd hport' (by decide)

end ReplySession

end HevTunnel
