import HevTunnel.Addr
import HevTunnel.SessionSet

/-! # New flows of the tunnel

The network stack hands the packets of the tunnel to `hev-socks5-tunnel.c` by callbacks, while the
calling task holds the tunnel's mutex.

* `udp_input` looks for a pcb of the source.  For an unknown source it creates one, calls
  `udp_recv_handler` on it and dispatches the datagram again, until a pcb takes it (`udpInput`).  A
  handler that removes the pcb makes it start from the beginning.
* `tcp_accept_handler` is called once for a connection.

Both create a session and a task for it.  When there is no task, the session is destroyed, and its
destructor locks the mutex, which is not recursive.

`handsBack_iff`: for which outcomes of the allocations control comes back. -/

namespace HevTunnel

structure Endpoint where
  ip : IpAddr
  port : UInt16
deriving DecidableEq

/-- A datagram, as `udp_input` gets it. -/
structure Incoming where
  src : Endpoint
  dest : Endpoint
deriving DecidableEq

/-- What `pcb->recv` points to. -/
inductive UdpHandler where
  /-- `dns_recv_handler`. -/
  | dns
  /-- `udp_recv_handler` of a session. -/
  | session (id : ℕ)
deriving DecidableEq

/-- A pcb for a source. -/
structure UdpPcb where
  remote : Endpoint
  recv : Option UdpHandler
deriving DecidableEq

/-- The pcbs that `udp_input` has created, and the sessions. -/
structure Gateway where
  pcbs : List UdpPcb
  sessions : SessionSet
deriving DecidableEq

/-- Which allocations succeed in one round of the dispatch. -/
structure Allocs where
  pcb : Bool
  /-- The session object and all that its constructor needs. -/
  session : Bool
  task : Bool
  /-- The buffer for a response of the mapped DNS. -/
  pbuf : Bool
deriving DecidableEq

/-- All allocations succeed. -/
def Allocs.ok : Allocs := ⟨true, true, true, true⟩

/-- How a callback ends. -/
inductive Called (α : Type) where
  | returns (a : α)
  /-- It waits for the mutex that its own task holds. -/
  | waits
  /-- `hev_task_wakeup` has aborted the process. -/
  | aborts

/-- Where a datagram has gone. -/
inductive Delivery where
  /-- `hev_mapped_dns_handle`. -/
  | mappedDns
  | session (id : ℕ)
  | dropped
deriving DecidableEq

namespace Gateway

structure Config where
  run : Bool
  /-- `hev_config_get_mapdns_address` and `hev_config_get_mapdns_port`, if there is a mapped DNS. -/
  mapdns : Option (BitVec 32 × Int)
  /-- `hev_config_get_misc_max_session_count`. -/
  maxSessions : Int

/-- The destination is the mapped DNS. -/
def Config.isMapdns (c : Config) (dest : Endpoint) : Bool :=
  match c.mapdns, dest.ip with
  | some (faddr, fport), .v4 addr => fport = dest.port.toNat && faddr = addr
  | _, _ => false

/-- The addresses that `gateway_init` gives the interface: the two loopback addresses. -/
def isNetifAddr : IpAddr → Bool
  | .v4 addr => addr = 0x7f000001#32
  | .v6 addr => addr = #v[0, 0, 0, 0, 0, 0, 0, 0, 0, 0, 0, 0, 0, 0, 0, 1]
  | .any => false

def find (g : Gateway) (src : Endpoint) : Option UdpPcb := g.pcbs.find? (fun p => p.remote = src)

/-- `udp_recv` of the pcb of a source. -/
def udpRecv (g : Gateway) (src : Endpoint) (h : UdpHandler) : Gateway :=
  { g with pcbs := g.pcbs.map (fun p => if p.remote = src then { p with recv := some h } else p) }

/-- `udp_remove` of the pcb of a source. -/
def udpRemove (g : Gateway) (src : Endpoint) : Gateway :=
  { g with pcbs := g.pcbs.eraseP (fun p => p.remote = src) }

/-! ### The callbacks -/

/-- `udp_recv_handler`. -/
def udpRecvHandler (c : Config) (a : Allocs) (g : Gateway) (d : Incoming) : Called Gateway :=
  if c.run = false then .returns (g.udpRemove d.src)
  else if c.isMapdns d.dest then .returns (g.udpRecv d.src .dns)
  else if a.session = false then .returns (g.udpRemove d.src)
  -- the session, which is the pcb's handler by now, is destroyed
  else if a.task = false then .waits
  else
    match g.sessions.accept c.maxSessions with
    | none => .aborts
    | some s => .returns { g.udpRecv d.src (.session g.sessions.next) with sessions := s }

/-- `tcp_accept_handler`: the result and the sessions.  `ERR_OK` is 0, `ERR_RST` is -14 and `ERR_MEM`
is -1. -/
def tcpAcceptHandler (c : Config) (a : Allocs) (s : SessionSet) (err : Int) :
    Called (Int × SessionSet) :=
  if err ≠ 0 then .returns (err, s)
  else if c.run = false then .returns (-14, s)
  else if a.session = false then .returns (-1, s)
  else if a.task = false then .waits
  else
    match s.accept c.maxSessions with
    | none => .aborts
    | some s => .returns (0, s)

/-- One round of `udp_input`, with the callback that it makes; without a delivery it starts
again. -/
def dispatch (c : Config) (a : Allocs) (g : Gateway) (d : Incoming) :
    Called (Gateway × Option Delivery) :=
  match g.find d.src with
  | some pcb =>
      match pcb.recv with
      | none => .returns (g, some .dropped)
      | some .dns =>
          .returns (g.udpRemove d.src, some (if a.pbuf then .mappedDns else .dropped))
      | some (.session id) => .returns (g, some (.session id))
  | none =>
      if isNetifAddr d.dest.ip then .returns (g, some .dropped)
      else if a.pcb = false then .returns (g, some .dropped)
      else
        match udpRecvHandler c a { g with pcbs := ⟨d.src, none⟩ :: g.pcbs } d with
        | .returns g => .returns (g, none)
        | .waits => .waits
        | .aborts => .aborts

/-- `udp_input`, for at most the given number of rounds; `as i` are the allocations of round `i`. -/
def udpInput (c : Config) : ℕ → (ℕ → Allocs) → Gateway → Incoming → Option (Called (Gateway × Delivery))
  | 0, _, _, _ => none
  | n + 1, as, g, d =>
      match dispatch c (as 0) g d with
      | .returns (g, some target) => some (.returns (g, target))
      | .returns (g, none) => udpInput c n (fun i => as (i + 1)) g d
      | .waits => some .waits
      | .aborts => some .aborts

/-! ### Control comes back -/

/-- A datagram is dispatched in finitely many rounds, and the sessions stay as they are unless one of
them takes it. -/
def UdpHandsBack (c : Config) (as : ℕ → Allocs) (g : Gateway) (d : Incoming) : Prop :=
  ∃ n g' target, udpInput c n as g d = some (.returns (g', target)) ∧
    ((∀ id, target ≠ .session id) → g'.sessions = g.sessions)

/-- The callback for a connection returns, and the sessions stay as they are unless it succeeds. -/
def TcpHandsBack (c : Config) (a : Allocs) (s : SessionSet) (err : Int) : Prop :=
  ∃ ret s', tcpAcceptHandler c a s err = .returns (ret, s') ∧ (ret ≠ 0 → s' = s)

/-- The insertion of a session wakes up a task that has not been started: the new session is the only
one and there may be no other, or the first session has no task that runs. -/
def InsertAborts (c : Config) (s : SessionSet) : Prop :=
  c.maxSessions ≠ 0 ∧ c.maxSessions ≤ s.count + 1 ∧
    ∀ n, s.list.head? = some n → n.task = .stopped

/-- The handler removes the pcb of the datagram. -/
def Retries (c : Config) (d : Incoming) (a : Allocs) : Prop :=
  a.pcb = true ∧ (c.run = false ∨ (c.isMapdns d.dest = false ∧ a.session = false))

/-- There is no pcb, or the handler gives it to the mapped DNS or to a session that is started. -/
def Settles (c : Config) (s : SessionSet) (d : Incoming) (a : Allocs) : Prop :=
  a.pcb = false ∨ (c.run = true ∧ (c.isMapdns d.dest = true ∨
    (a.session = true ∧ a.task = true ∧ ¬ InsertAborts c s)))

theorem accept_eq_none_iff (c : Config) (s : SessionSet) :
    s.accept c.maxSessions = none ↔ InsertAborts c s := by
  simp only [SessionSet.accept, Option.bind_eq_bind, Option.bind_eq_none_iff, Option.pure_def,
    reduceCtorEq, imp_false, SessionSet.insertSession, InsertAborts]
  by_cases hmax : c.maxSessions = 0 ∨ s.count + 1 < c.maxSessions
  · rw [if_pos hmax]
    refine iff_of_false (by simp) ?_
    rintro ⟨h₀, hle, -⟩
    omega
  · rw [if_neg hmax]
    rw [not_or, not_lt] at hmax
    simp only [hmax.1, hmax.2, ne_eq, not_false_eq_true, true_and]
    cases s.list with
    | nil => simp [SessionNode.terminate, TaskState.wakeup]
    | cons n rest =>
        have hterm := n.terminate_eq_none_iff
        cases hn : n.terminate with
        | none => simpa [hn] using hterm.mp hn
        | some n' =>
            have : n.task ≠ .stopped := fun h => by simp [hterm.mpr h] at hn
            simpa [hn] using this

section rounds
variable {c : Config} {a : Allocs} {as : ℕ → Allocs} {g : Gateway} {d : Incoming}

theorem udpRemove_cons (g : Gateway) (src : Endpoint) (h : Option UdpHandler) :
    udpRemove { g with pcbs := ⟨src, h⟩ :: g.pcbs } src = g := by
  simp [udpRemove]

/-- Only the new pcb of an unknown source gets the handler. -/
theorem udpRecv_cons {src : Endpoint} (hfind : g.find src = none) (h : UdpHandler) :
    udpRecv { g with pcbs := ⟨src, none⟩ :: g.pcbs } src h =
      { g with pcbs := ⟨src, some h⟩ :: g.pcbs } := by
  have hother : ∀ p ∈ g.pcbs, p.remote ≠ src := by simpa [find] using hfind
  have hmap : g.pcbs.map (fun p => if p.remote = src then { p with recv := some h } else p) =
      g.pcbs :=
    (List.map_congr_left (fun p hp => if_neg (hother p hp))).trans (List.map_id g.pcbs)
  simp only [udpRecv, List.map_cons, if_true, hmap]

theorem find_cons (p : UdpPcb) (pcbs : List UdpPcb) (s : SessionSet) :
    find ⟨p :: pcbs, s⟩ p.remote = some p := by
  simp [find]

theorem Settles.not_retries {s : SessionSet} (h : Settles c s d a) : ¬ Retries c d a := by
  rintro ⟨hpcb, hrun | ⟨hmap, hsession⟩⟩
  · rcases h with h | ⟨h, -⟩
    · simp [hpcb] at h
    · simp [hrun] at h
  · rcases h with h | ⟨-, h | ⟨h, -⟩⟩
    · simp [hpcb] at h
    · simp [hmap] at h
    · simp [hsession] at h

theorem dispatch_of_retries (hd : g.find d.src = none) (hdest : isNetifAddr d.dest.ip = false)
    (h : Retries c d a) : dispatch c a g d = .returns (g, none) := by
  obtain ⟨hpcb, hrun | ⟨hmap, hsession⟩⟩ := h
  · simp [dispatch, hd, hdest, hpcb, udpRecvHandler, hrun, udpRemove_cons]
  · -- without a session the pcb is removed whether the tunnel runs or not
    cases hrun : c.run <;>
      simp [dispatch, hd, hdest, hpcb, udpRecvHandler, hrun, hmap, hsession, udpRemove_cons]

/-- A round for an unknown source, according to its allocations: the datagram is dropped, nothing
has changed, there is a pcb that takes the datagram, or control does not come back. -/
theorem dispatch_unknown (hd : g.find d.src = none) (hdest : isNetifAddr d.dest.ip = false)
    (a : Allocs) :
    (Settles c g.sessions d a ∧ dispatch c a g d = .returns (g, some .dropped)) ∨
    (Retries c d a ∧ dispatch c a g d = .returns (g, none)) ∨
    (Settles c g.sessions d a ∧ ∃ g', dispatch c a g d = .returns (g', none) ∧
      ((g'.find d.src = some ⟨d.src, some .dns⟩ ∧ g'.sessions = g.sessions) ∨
        ∃ id, g'.find d.src = some ⟨d.src, some (.session id)⟩)) ∨
    (¬ Retries c d a ∧ ¬ Settles c g.sessions d a ∧
      (dispatch c a g d = .waits ∨ dispatch c a g d = .aborts)) := by
  by_cases hretries : Retries c d a
  · exact .inr (.inl ⟨hretries, dispatch_of_retries hd hdest hretries⟩)
  cases hpcb : a.pcb with
  | false => exact .inl ⟨.inl hpcb, by simp [dispatch, hd, hdest, hpcb]⟩
  | true =>
      have hrun : c.run = true := by simpa using fun h => hretries ⟨hpcb, .inl h⟩
      simp only [dispatch, hd, hdest, hpcb, udpRecvHandler, hrun, udpRecv_cons hd]
      refine .inr (.inr ?_)
      cases hmap : c.isMapdns d.dest with
      | true =>
          refine .inl ⟨.inr ⟨hrun, .inl hmap⟩, _, rfl, .inl ⟨?_, rfl⟩⟩
          exact find_cons ⟨d.src, some .dns⟩ g.pcbs g.sessions
      | false =>
          have hsession : a.session = true := by simpa using fun h => hretries ⟨hpcb, .inr ⟨hmap, h⟩⟩
          have hsettles : Settles c g.sessions d a ↔ a.task = true ∧ ¬ InsertAborts c g.sessions := by
            simp [Settles, hpcb, hrun, hmap, hsession]
          rw [hsettles, ← accept_eq_none_iff, hsession]
          cases a.task with
          | false => exact .inr ⟨hretries, by simp, .inl rfl⟩
          | true =>
              cases g.sessions.accept c.maxSessions with
              | none => exact .inr ⟨hretries, by simp, .inr rfl⟩
              | some s =>
                  refine .inl ⟨by simp, _, rfl, .inr ⟨g.sessions.next, ?_⟩⟩
                  exact find_cons ⟨d.src, some (.session g.sessions.next)⟩ g.pcbs s

/-- A datagram of a known source takes one round. -/
theorem udpInput_known {p : UdpPcb} (hd : g.find d.src = some p) (n : ℕ) (as : ℕ → Allocs) :
    ∃ g' target, udpInput c (n + 1) as g d = some (.returns (g', target)) ∧
      g'.sessions = g.sessions ∧ ∀ id, p.recv = some (.session id) → target = .session id := by
  obtain ⟨remote, recv⟩ := p
  rw [udpInput, dispatch, hd]
  rcases recv with _ | _ | id
  · exact ⟨g, .dropped, rfl, rfl, by simp⟩
  · exact ⟨_, _, rfl, rfl, by simp⟩
  · exact ⟨g, .session id, rfl, rfl, by simp⟩

/-- The rounds before the one that settles the datagram change nothing. -/
theorem settles_of_udpInput (hd : g.find d.src = none) (hdest : isNetifAddr d.dest.ip = false) {n : ℕ}
    {g' : Gateway} {target : Delivery} (h : udpInput c n as g d = some (.returns (g', target))) :
    ∃ k, (∀ j < k, Retries c d (as j)) ∧ Settles c g.sessions d (as k) := by
  induction n generalizing as with
  | zero => cases h
  | succ n ih =>
      rw [udpInput] at h
      rcases dispatch_unknown hd hdest (as 0) with ⟨hs, -⟩ | ⟨hr, hround⟩ | ⟨hs, -⟩ |
        ⟨-, -, hround | hround⟩
      · exact ⟨0, by simp, hs⟩
      · rw [hround] at h
        obtain ⟨k, hk, hs⟩ := ih h
        refine ⟨k + 1, fun j hj => ?_, hs⟩
        cases j with
        | zero => exact hr
        | succ j => exact hk j (by omega)
      · exact ⟨0, by simp, hs⟩
      · rw [hround] at h
        cases h
      · rw [hround] at h
        cases h

/-- A round that settles the datagram is the last one, or the one before it. -/
theorem udpHandsBack_of_settles (hd : g.find d.src = none) (hdest : isNetifAddr d.dest.ip = false)
    (hs : Settles c g.sessions d (as 0)) : UdpHandsBack c as g d := by
  rcases dispatch_unknown hd hdest (as 0) with ⟨-, hround⟩ | ⟨hr, -⟩ | ⟨-, g₁, hround, hfind⟩ |
    ⟨-, hns, -⟩
  · exact ⟨1, g, .dropped, by rw [udpInput, hround], fun _ => rfl⟩
  · exact absurd hr hs.not_retries
  · rcases hfind with ⟨hfind, hsame⟩ | ⟨id, hfind⟩
    · obtain ⟨g', target, hin, hsess, -⟩ := udpInput_known (c := c) hfind 0 (fun i => as (i + 1))
      exact ⟨2, g', target, by rw [udpInput, hround]; exact hin, fun _ => hsess.trans hsame⟩
    · obtain ⟨g', target, hin, -, htarget⟩ := udpInput_known (c := c) hfind 0 (fun i => as (i + 1))
      refine ⟨2, g', target, by rw [udpInput, hround]; exact hin, fun h => ?_⟩
      exact absurd (htarget id rfl) (h id)
  · exact absurd hs hns

/-- The datagrams for which `udp_input` ends. -/
theorem udpHandsBack_iff (hd : g.find d.src = none) :
    UdpHandsBack c as g d ↔ isNetifAddr d.dest.ip = true ∨
      ∃ k, (∀ j < k, Retries c d (as j)) ∧ Settles c g.sessions d (as k) := by
  cases hdest : isNetifAddr d.dest.ip with
  | true =>
      refine iff_of_true ⟨1, g, .dropped, ?_, fun _ => rfl⟩ (.inl rfl)
      simp [udpInput, dispatch, hd, hdest]
  | false =>
      simp only [Bool.false_eq_true, false_or]
      constructor
      · rintro ⟨n, g', target, h, -⟩
        exact settles_of_udpInput hd hdest h
      · rintro ⟨k, hk, hs⟩
        induction k generalizing as with
        | zero => exact udpHandsBack_of_settles hd hdest hs
        | succ k ih =>
            obtain ⟨n, g', target, hin, hsess⟩ := ih (fun j hj => hk (j + 1) (by omega)) hs
            refine ⟨n + 1, g', target, ?_, hsess⟩
            rw [udpInput, dispatch_of_retries hd hdest (hk 0 (by omega))]
            exact hin

end rounds

/-- The connections for which the callback returns. -/
theorem tcpHandsBack_iff (c : Config) (a : Allocs) (s : SessionSet) (err : Int) :
    TcpHandsBack c a s err ↔ err ≠ 0 ∨ c.run = false ∨ a.session = false ∨
      (a.task = true ∧ ¬ InsertAborts c s) := by
  unfold TcpHandsBack tcpAcceptHandler
  by_cases herr : err = 0
  · cases hrun : c.run with
    | false => simp [herr]
    | true =>
        cases hsession : a.session with
        | false => simp [herr]
        | true =>
            cases htask : a.task with
            | false => simp [herr]
            | true =>
                rw [← accept_eq_none_iff]
                cases s.accept c.maxSessions with
                | none => simp [herr]
                | some s' => simp [herr]
  · simp [herr]

/-- For which outcomes of the allocations control comes back from the callbacks for new flows. -/
theorem handsBack_iff (c : Config) (as : ℕ → Allocs) (g : Gateway) :
    (∀ d, g.find d.src = none →
      (UdpHandsBack c as g d ↔ isNetifAddr d.dest.ip = true ∨
        ∃ k, (∀ j < k, Retries c d (as j)) ∧ Settles c g.sessions d (as k))) ∧
    ∀ err, TcpHandsBack c (as 0) g.sessions err ↔ err ≠ 0 ∨ c.run = false ∨
      (as 0).session = false ∨ ((as 0).task = true ∧ ¬ InsertAborts c g.sessions) :=
  ⟨fun _ hd => udpHandsBack_iff hd, fun err => tcpHandsBack_iff c (as 0) g.sessions err⟩

/-- Before the first packet. -/
def init : Gateway := ⟨[], .init⟩

def sampleIncoming : Incoming := ⟨⟨.v4 0x0a000002, 1000⟩, ⟨.v4 0x08080808, 53⟩⟩

/-- The session object is there at the third attempt only. -/
theorem handsBack_third_round :
    UdpHandsBack ⟨true, none, 0⟩ (fun i => if i < 2 then ⟨true, false, true, true⟩ else Allocs.ok) init
      sampleIncoming := by
  refine ((handsBack_iff _ _ init).1 sampleIncoming rfl).mpr (.inr ⟨2, ?_, ?_⟩)
  · intro j hj
    simp only [hj, if_true]
    exact ⟨rfl, .inr ⟨rfl, rfl⟩⟩
  · refine .inr ⟨rfl, .inr ⟨rfl, rfl, ?_⟩⟩
    rintro ⟨h, -⟩
    exact h rfl

/-- While the tunnel stops, a datagram of an unknown source is dispatched for ever.  Without a task
for the session both callbacks wait for the mutex. -/
theorem callbacks_keep_control :
    (∀ n, udpInput ⟨false, none, 0⟩ n (fun _ => Allocs.ok) init sampleIncoming = none) ∧
    udpInput ⟨true, none, 0⟩ 1 (fun _ => ⟨true, true, false, true⟩) init sampleIncoming = some .waits ∧
    tcpAcceptHandler ⟨true, none, 0⟩ ⟨true, true, false, true⟩ .init 0 = .waits ∧
    ¬ UdpHandsBack ⟨false, none, 0⟩ (fun _ => Allocs.ok) init sampleIncoming := by
  have hnone : ∀ n, udpInput ⟨false, none, 0⟩ n (fun _ => Allocs.ok) init sampleIncoming = none := by
    intro n
    induction n with
    | zero => rfl
    | succ n ih => exact ih
  refine ⟨hnone, rfl, rfl, ?_⟩
  rintro ⟨n, g', target, h, -⟩
  rw [hnone n] at h
  cases h

end Gateway
end HevTunnel
