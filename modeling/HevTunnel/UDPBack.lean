import HevTunnel.UDPReply
import HevTunnel.UDPRelay

/-! # Datagrams without an address

`hev_socks5_udp_recvmmsg_udp` keeps a datagram of less than four bytes as a message without an
address and without a payload.  `hev_socks5_session_udp_fwd_b` does not expect such a message: it
reads its address, or, if the session has an address of its own to answer from, injects an empty
datagram.

* `fwdBLoop` is the loop over the messages, with the things that it does to each of them.
* `backSafe_iff`: the loop uses only what was received, and passes over the messages without an
  address, exactly if each of them stands behind a message at which the loop ends. -/

namespace HevTunnel

/-! ### The loop over the messages -/

/-- What `hev_socks5_session_udp_fwd_b` does with the message `i`. -/
inductive BackAct where
  /-- `hev_socks5_addr_into_lwip` reads its address. -/
  | address (i : ℕ)
  /-- `pbuf_alloc_reference` is called for its payload. -/
  | alloc (i : ℕ)
  /-- `udp_sendfrom` is called with its payload. -/
  | send (i : ℕ) (payload : List Byte)

def BackAct.index : BackAct → ℕ
  | address i => i
  | alloc i => i
  | send i _ => i

section loop
variable (s : ReplySession) (alloc ok : ℕ → Bool)

/-- The part of a round behind the source address; `rest` are the rounds that follow. -/
def sendBack (e : Option UdpEntry) (i : ℕ) (rest : List BackAct × Option Int) :
    List BackAct × Option Int :=
  if !alloc i then ([.alloc i], some (-1))
  else
    let payload := e.elim [] UdpEntry.buf
    if !ok i then ([.alloc i, .send i payload], some (-1))
    else (.alloc i :: .send i payload :: rest.1, rest.2)

/-- The loop of `hev_socks5_session_udp_fwd_b` over the messages with their numbers: what it does
and what it returns, `none` if it reads the address of a message that has none.  `alloc` is whether
there is a buffer for a message, `ok` whether `udp_sendfrom` succeeds. -/
def fwdBLoop : List (Option UdpEntry × ℕ) → List BackAct × Option Int
  | [] => ([], some 1)
  | (e, i) :: es =>
      let r := sendBack alloc ok e i (fwdBLoop es)
      if s.Remembers then r
      else
        match e with
        | none => ([.address i], none)
        | some e => if intoLwip e then (.address i :: r.1, r.2) else ([.address i], some (-1))

/-- The message that a datagram is received as. -/
def Packet.received (p : Packet) : Option UdpEntry := if p.len < 4 then none else some p.entry

/-- The loop ends at the datagram `i`: there is no buffer for it, sending it fails, or its source is
a name and the session has no address of its own. -/
def EndsAt (p : Packet) (i : ℕ) : Prop :=
  alloc i = false ∨ ok i = false ∨ (¬ s.Remembers ∧ p.buf 3 ≠ 1 ∧ p.buf 3 ≠ 4)

/-- Everything that is done is done with messages whose address and payload lie inside of what was
received, and the messages without an address change nothing. -/
structure BackSafe (ps : List Packet) (es : List (Option UdpEntry)) : Prop where
  inside : ∀ a ∈ (fwdBLoop s alloc ok es.zipIdx).1, ∃ p, ps[a.index]? = some p ∧
    es[a.index]? = some (some p.entry) ∧ 0 < p.addrlen ∧ 3 + p.addrlen ≤ p.len
  skipped : fwdBLoop s alloc ok es.zipIdx = fwdBLoop s alloc ok (es.zipIdx.filter (·.1.isSome))

/-! ### Which messages are reached -/

/-- The loop ends before it gets to a datagram without an address. -/
def ShortUnreached : List (Packet × ℕ) → Prop
  | [] => True
  | (p, i) :: ps => 4 ≤ p.len ∧ (EndsAt s alloc ok p i ∨ ShortUnreached ps)

theorem shortUnreached_iff (ps : List Packet) (n : ℕ) :
    ShortUnreached s alloc ok (ps.zipIdx n) ↔ ∀ i p, ps[i]? = some p → p.len < 4 →
      ∃ j q, j < i ∧ ps[j]? = some q ∧ EndsAt s alloc ok q (n + j) := by
  induction ps generalizing n with
  | nil => simp [ShortUnreached]
  | cons p ps ih =>
      rw [List.zipIdx_cons, ShortUnreached, ih]
      constructor
      · rintro ⟨hlen, hrest⟩ i q hq hshort
        cases i with
        | zero =>
            cases hq
            omega
        | succ i =>
            rw [List.getElem?_cons_succ] at hq
            rcases hrest with hend | hrest
            · exact ⟨0, p, by omega, rfl, hend⟩
            · obtain ⟨j, q', hj, hq', hend⟩ := hrest i q hq hshort
              refine ⟨j + 1, q', by omega, hq', ?_⟩
              rwa [show n + (j + 1) = n + 1 + j by omega]
      · intro h
        refine ⟨?_, ?_⟩
        · by_contra hshort
          obtain ⟨j, -, hj, -⟩ := h 0 p rfl (by omega)
          omega
        · by_cases hend : EndsAt s alloc ok p n
          · exact .inl hend
          · refine .inr ?_
            intro i q hq hshort
            obtain ⟨j, q', hj, hq', hend'⟩ := h (i + 1) q hq hshort
            cases j with
            | zero =>
                cases hq'
                exact absurd hend' hend
            | succ j =>
                refine ⟨j, q', by omega, hq', ?_⟩
                rwa [show n + (j + 1) = n + 1 + j by omega] at hend'

/-! ### One round -/

/-- An accepted datagram that is not too short has its address and its payload inside of it. -/
theorem Packet.Accepted.address {p : Packet} (h : p.Accepted) (hlen : 4 ≤ p.len) :
    0 < p.addrlen ∧ 3 + p.addrlen ≤ p.len := by
  rcases h with hshort | h
  · omega
  · exact h

/-- The type of the address is the fourth byte of the datagram. -/
theorem intoLwip_entry {p : Packet} (hpos : 0 < p.addrlen) :
    intoLwip p.entry = true ↔ p.buf 3 = 1 ∨ p.buf 3 = 4 := by
  obtain ⟨n, hn⟩ : ∃ n, p.addrlen.toNat = n + 1 := ⟨p.addrlen.toNat - 1, by omega⟩
  have hget : p.entry.addr.getD 0 0 = p.buf 3 := by
    rw [Packet.entry, Packet.bytes, hn, Nat.add_sub_cancel_left, List.range_succ_eq_map]
    rfl
  rw [intoLwip, hget, Bool.or_eq_true, decide_eq_true_eq, decide_eq_true_eq]

/-- The rest of a round ends the loop, or the next rounds follow. -/
theorem sendBack_cases (e : Option UdpEntry) (i : ℕ) :
    ∃ acts, .alloc i ∈ acts ∧ (∀ a ∈ acts, a.index = i) ∧
      (((alloc i = false ∨ ok i = false) ∧ ∀ rest, sendBack alloc ok e i rest = (acts, some (-1))) ∨
       (alloc i = true ∧ ok i = true ∧
        ∀ rest, sendBack alloc ok e i rest = (acts ++ rest.1, rest.2))) := by
  unfold sendBack
  cases halloc : alloc i with
  | false => exact ⟨[.alloc i], by simp, by simp [BackAct.index], .inl ⟨.inl rfl, fun _ => rfl⟩⟩
  | true =>
      refine ⟨[.alloc i, .send i (e.elim [] UdpEntry.buf)], by simp, by simp [BackAct.index], ?_⟩
      cases hok : ok i with
      | false => exact .inl ⟨.inr rfl, fun _ => rfl⟩
      | true => exact .inr ⟨rfl, rfl, fun _ => rfl⟩

/-- A round on a message with an address. -/
theorem fwdBLoop_entry {p : Packet} (hpos : 0 < p.addrlen) (i : ℕ) :
    ∃ acts, (∀ a ∈ acts, a.index = i) ∧
      ((EndsAt s alloc ok p i ∧
        ∃ res, ∀ es, fwdBLoop s alloc ok ((some p.entry, i) :: es) = (acts, res)) ∨
       (¬ EndsAt s alloc ok p i ∧ ∀ es, fwdBLoop s alloc ok ((some p.entry, i) :: es) =
        (acts ++ (fwdBLoop s alloc ok es).1, (fwdBLoop s alloc ok es).2))) := by
  obtain ⟨acts, -, hidx, hsend⟩ := sendBack_cases alloc ok (some p.entry) i
  by_cases hrem : s.Remembers
  · refine ⟨acts, hidx, ?_⟩
    simp only [fwdBLoop, if_pos hrem]
    rcases hsend with ⟨hfail, hsend⟩ | ⟨halloc, hok, hsend⟩
    · refine .inl ⟨?_, some (-1), fun es => hsend _⟩
      rcases hfail with h | h
      · exact .inl h
      · exact .inr (.inl h)
    · refine .inr ⟨?_, fun es => hsend _⟩
      simp [EndsAt, halloc, hok, hrem]
  · simp only [fwdBLoop, if_neg hrem]
    by_cases hinto : intoLwip p.entry = true
    · refine ⟨.address i :: acts, by simpa [BackAct.index] using hidx, ?_⟩
      simp only [if_pos hinto]
      rcases hsend with ⟨hfail, hsend⟩ | ⟨halloc, hok, hsend⟩
      · refine .inl ⟨?_, some (-1), fun es => by rw [hsend]⟩
        rcases hfail with h | h
        · exact .inl h
        · exact .inr (.inl h)
      · refine .inr ⟨?_, fun es => by rw [hsend]; rfl⟩
        rw [intoLwip_entry hpos] at hinto
        rw [EndsAt, halloc, hok]
        tauto
    · refine ⟨[.address i], by simp [BackAct.index], .inl ⟨?_, some (-1), fun es => if_neg hinto⟩⟩
      rw [intoLwip_entry hpos, not_or] at hinto
      exact .inr (.inr ⟨hrem, hinto⟩)

/-- A round on a message without an address does something with it. -/
theorem fwdBLoop_short (i : ℕ) (es : List (Option UdpEntry × ℕ)) :
    ∃ a ∈ (fwdBLoop s alloc ok ((none, i) :: es)).1, a.index = i := by
  by_cases hrem : s.Remembers
  · obtain ⟨acts, hmem, -, ⟨-, hsend⟩ | ⟨-, -, hsend⟩⟩ := sendBack_cases alloc ok none i
    · exact ⟨.alloc i, by simpa only [fwdBLoop, if_pos hrem, hsend] using hmem, rfl⟩
    · refine ⟨.alloc i, ?_, rfl⟩
      simp only [fwdBLoop, if_pos hrem, hsend]
      exact List.mem_append_left _ hmem
  · exact ⟨.address i, by simp [fwdBLoop, if_neg hrem], rfl⟩

/-! ### The whole loop -/

/-- The messages of a batch with their numbers. -/
def numbered (ps : List (Packet × ℕ)) : List (Option UdpEntry × ℕ) :=
  ps.map (fun x => (x.1.received, x.2))

theorem numbered_cons_entry {p : Packet} (hlen : 4 ≤ p.len) (i : ℕ) (ps : List (Packet × ℕ)) :
    numbered ((p, i) :: ps) = (some p.entry, i) :: numbered ps := by
  simp [numbered, Packet.received, hlen]

/-- A loop that gets to no message without an address is the loop over the other messages. -/
theorem fwdBLoop_of_shortUnreached {ps : List (Packet × ℕ)} (hacc : ∀ x ∈ ps, x.1.Accepted)
    (h : ShortUnreached s alloc ok ps) :
    fwdBLoop s alloc ok (numbered ps) = fwdBLoop s alloc ok ((numbered ps).filter (·.1.isSome)) ∧
    ∀ a ∈ (fwdBLoop s alloc ok (numbered ps)).1, ∃ p, (p, a.index) ∈ ps ∧ 4 ≤ p.len := by
  induction ps with
  | nil => simp [numbered, fwdBLoop]
  | cons x ps ih =>
      obtain ⟨p, i⟩ := x
      obtain ⟨hlen, hrest⟩ := h
      have hpos := ((hacc (p, i) (by simp)).address hlen).1
      rw [numbered_cons_entry hlen, List.filter_cons_of_pos (by rfl)]
      obtain ⟨acts, hidx, ⟨-, res, hloop⟩ | ⟨hend, hloop⟩⟩ := fwdBLoop_entry s alloc ok hpos i
      · rw [hloop, hloop]
        refine ⟨rfl, ?_⟩
        intro a ha
        exact ⟨p, by simp [hidx a ha], hlen⟩
      · obtain ⟨heq, hall⟩ := ih (fun x hx => hacc x (List.mem_cons_of_mem _ hx))
          (hrest.resolve_left hend)
        rw [hloop, hloop, ← heq]
        refine ⟨rfl, ?_⟩
        intro a ha
        rcases List.mem_append.mp ha with ha | ha
        · exact ⟨p, by simp [hidx a ha], hlen⟩
        · obtain ⟨q, hq, hqlen⟩ := hall a ha
          exact ⟨q, List.mem_cons_of_mem _ hq, hqlen⟩

/-- Any other loop does something with a message that has no address. -/
theorem exists_act_of_not_shortUnreached {ps : List (Packet × ℕ)} (hacc : ∀ x ∈ ps, x.1.Accepted)
    (h : ¬ ShortUnreached s alloc ok ps) :
    ∃ p, p.len < 4 ∧ ∃ a ∈ (fwdBLoop s alloc ok (numbered ps)).1, (p, a.index) ∈ ps := by
  induction ps with
  | nil => exact absurd trivial h
  | cons x ps ih =>
      obtain ⟨p, i⟩ := x
      rw [ShortUnreached, not_and_or] at h
      by_cases hlen : 4 ≤ p.len
      · obtain ⟨hend, hrest⟩ := not_or.mp (h.resolve_left (not_not.mpr hlen))
        obtain ⟨q, hq, a, ha, hmem⟩ := ih (fun x hx => hacc x (List.mem_cons_of_mem _ hx)) hrest
        have hpos := ((hacc (p, i) (by simp)).address hlen).1
        refine ⟨q, hq, a, ?_, List.mem_cons_of_mem _ hmem⟩
        rw [numbered_cons_entry hlen]
        obtain ⟨acts, -, ⟨hend', -⟩ | ⟨-, hloop⟩⟩ := fwdBLoop_entry s alloc ok hpos i
        · exact absurd hend' hend
        · rw [hloop]
          exact List.mem_append_right _ ha
      · have hcons : numbered ((p, i) :: ps) = (none, i) :: numbered ps := by
          simp [numbered, Packet.received, not_le.mp hlen]
        obtain ⟨a, ha, hidx⟩ := fwdBLoop_short s alloc ok i (numbered ps)
        exact ⟨p, by omega, a, by rw [hcons]; exact ha, by simp [hidx]⟩

end loop

/-! ### The messages of a call -/

theorem udpEntries_eq_some {ps : List Packet} {es : List (Option UdpEntry)}
    (h : udpEntries ps = some es) : es = ps.map Packet.received ∧ ∀ p ∈ ps, p.Accepted := by
  refine ⟨?_, ?_⟩
  · induction ps generalizing es with
    | nil =>
        cases h
        rfl
    | cons p ps ih =>
        unfold udpEntries at h
        split_ifs at h with hshort hpos hlen
        · obtain ⟨es', hes, rfl⟩ := Option.map_eq_some_iff.mp h
          rw [List.map_cons, Packet.received, if_pos hshort, ih hes]
        · obtain ⟨es', hes, rfl⟩ := Option.map_eq_some_iff.mp h
          rw [List.map_cons, Packet.received, if_neg hshort, ih hes]
  · rcases udpEntries_cases ps with ⟨_, -, -, hall⟩ | ⟨hnone, -⟩
    · exact hall
    · rw [hnone] at h
      cases h

/-- A call that returns messages returns one for each datagram. -/
theorem recvmmsgUdp_pos {peer peer' : Option Sockaddr6} {ps : List Packet} {conn : Bool} {r : Int}
    {es : List (Option UdpEntry)} (h : recvmmsgUdp peer ps.length ps conn = (r, es, peer'))
    (hr : 0 < r) : es = ps.map Packet.received ∧ ∀ p ∈ ps, p.Accepted := by
  cases ps with
  | nil =>
      cases h
      simp at hr
  | cons p ps =>
      unfold recvmmsgUdp at h
      simp only at h
      split_ifs at h with hconn
      · cases h
        omega
      · cases hes : udpEntries (p :: ps) with
        | none =>
            rw [hes] at h
            cases h
            omega
        | some es' =>
            rw [hes] at h
            cases h
            exact udpEntries_eq_some hes

/-- For every batch of datagrams that is received, every state of the session and every outcome of
what the loop calls: the loop is safe exactly if it ends before each datagram that is too short for
an address. -/
theorem backSafe_iff {peer peer' : Option Sockaddr6} {ps : List Packet} {conn : Bool} {r : Int}
    {es : List (Option UdpEntry)} (h : recvmmsgUdp peer ps.length ps conn = (r, es, peer'))
    (hr : 0 < r) (s : ReplySession) (alloc ok : ℕ → Bool) :
    BackSafe s alloc ok ps es ↔ ∀ i p, ps[i]? = some p → p.len < 4 →
      ∃ j q, j < i ∧ ps[j]? = some q ∧ EndsAt s alloc ok q j := by
  obtain ⟨rfl, hacc⟩ := recvmmsgUdp_pos h hr
  have hnum : (ps.map Packet.received).zipIdx = numbered ps.zipIdx := by
    rw [List.zipIdx_map, numbered]
    rfl
  have hacc' : ∀ x ∈ ps.zipIdx, x.1.Accepted :=
    fun x hx => hacc x.1 (List.fst_mem_of_mem_zipIdx hx)
  have hunreached := shortUnreached_iff s alloc ok ps 0
  simp only [Nat.zero_add] at hunreached
  rw [← hunreached]
  constructor
  · intro hsafe
    by_contra hreach
    obtain ⟨p, hp, a, ha, hmem⟩ := exists_act_of_not_shortUnreached s alloc ok hacc' hreach
    rw [← hnum] at ha
    obtain ⟨q, -, hq, -⟩ := hsafe.inside a ha
    -- the message of the short datagram has no address
    rw [List.getElem?_map, List.mem_zipIdx_iff_getElem?.mp hmem] at hq
    simp [Packet.received, hp] at hq
  · intro hun
    obtain ⟨heq, hall⟩ := fwdBLoop_of_shortUnreached s alloc ok hacc' hun
    refine ⟨?_, by rw [hnum]; exact heq⟩
    intro a ha
    rw [hnum] at ha
    obtain ⟨p, hmem, hlen⟩ := hall a ha
    have hget := List.mem_zipIdx_iff_getElem?.mp hmem
    refine ⟨p, hget, ?_, (hacc' _ hmem).address hlen⟩
    rw [List.getElem?_map, hget]
    simp [Packet.received, hlen]

/-- An empty datagram. -/
def emptyPacket : Packet := ⟨⟨Vector.replicate 16 0, 53⟩, fun _ => 0, 0⟩

/-- A session without an address of its own that receives an empty datagram reads an address at
`NULL`. -/
theorem backSafe_empty_datagram :
    (recvmmsgUdp none 1 [emptyPacket] true).1 = 1 ∧
    (recvmmsgUdp none 1 [emptyPacket] true).2.1 = [none] ∧
    fwdBLoop (.init none) (fun _ => true) (fun _ => true) [(none, 0)] = ([.address 0], none) ∧
    ¬ BackSafe (.init none) (fun _ => true) (fun _ => true) [emptyPacket] [none] := by
  refine ⟨rfl, rfl, rfl, ?_⟩
  intro h
  obtain ⟨p, -, hp, -⟩ := h.inside (.address 0) (List.mem_singleton_self _)
  cases hp

/-- Three datagrams: one of an IPv4 source, one of a name, and an empty one. -/
def threePackets : List Packet :=
  [⟨⟨Vector.replicate 16 0, 53⟩, fun i => [0, 0, 0, 1, 10, 0, 0, 1, 0, 53, 7, 8].getD i 0, 12⟩,
    ⟨⟨Vector.replicate 16 0, 53⟩, fun i => [0, 0, 0, 3, 1, 97, 0, 53, 9].getD i 0, 9⟩, emptyPacket]

/-- The loop ends at the name and does not get to the empty datagram. -/
theorem backSafe_three_datagrams :
    (recvmmsgUdp none 3 threePackets true).1 = 3 ∧
    BackSafe (.init none) (fun _ => true) (fun _ => true) threePackets
      (threePackets.map Packet.received) := by
  have hcall : recvmmsgUdp none threePackets.length threePackets true =
      (3, threePackets.map Packet.received, some ⟨Vector.replicate 16 0, 53⟩) := rfl
  refine ⟨congrArg Prod.fst hcall, (backSafe_iff hcall (by decide) _ _ _).mpr ?_⟩
  intro i p hp hshort
  match i, hp with
  | 0, hp =>
      cases hp
      exact absurd hshort (by decide)
  | 1, hp =>
      cases hp
      exact absurd hshort (by decide)
  | 2, _ => exact ⟨1, _, by decide, rfl, .inr (.inr ⟨by decide, by decide, by decide⟩)⟩

end HevTunnel
