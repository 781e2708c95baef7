import HevTunnel.Gateway

/-! # Datagrams to the mapped DNS

`udp_recv_handler` chooses between the mapped DNS and a session when the first datagram of a source
arrives.  The choice is kept in the pcb of the source: `dns_recv_handler` removes the pcb after one
query, a session keeps it until it ends.

`GatewayRun` are runs of datagrams and of what happens to the sessions in between, while the tunnel
runs and memory can be allocated.  `everyState_dispatched_iff`: all datagrams go where they should
exactly if the source of a query for the mapped DNS has no session, no session with a full queue gets
another datagram, and no unknown source sends to the address of the interface itself. -/

namespace HevTunnel

/-- The gateway, the number of datagrams that wait in each session (`self->frames`), and where the
datagrams have gone so far. -/
structure GatewayRun where
  gateway : Gateway
  frames : ℕ → ℕ
  log : List (Incoming × Delivery)

namespace GatewayRun

open Gateway

inductive Step where
  | datagram (d : Incoming)
  /-- `hev_socks5_session_udp_fwd_f` of a session has sent `n` datagrams. -/
  | sent (id n : ℕ)
  /-- A session of the other kind is created, or something happens to a session. -/
  | sessions (x : SessionSet.Step)

def init : GatewayRun := ⟨Gateway.init, fun _ => 0, []⟩

/-- A tunnel that runs and has a mapped DNS at `m`. -/
def config (m : BitVec 32 × Int) (max : Int) : Gateway.Config := ⟨true, some m, max⟩

def udpPoolSize : ℕ := 512

/-- The pcbs when a session does the step: the destructor of a session removes its pcb. -/
def pcbsAfter (pcbs : List UdpPcb) : SessionSet.Step → List UdpPcb
  | .delete id => pcbs.filter (fun p => p.recv ≠ some (.session id))
  | _ => pcbs

/-- The datagrams that wait in the session which gets the datagram; a new session has none. -/
def queued (s : GatewayRun) (d : Incoming) (id : ℕ) : ℕ :=
  if s.gateway.find d.src = none then 0 else s.frames id

def step (m : BitVec 32 × Int) (max : Int) (s : GatewayRun) : Step → Option GatewayRun
  | .datagram d =>
      match udpInput (config m max) 2 (fun _ => Allocs.ok) s.gateway d with
      | some (.returns (g, .session id)) =>
          -- `udp_recv_handler` of the session
          if udpPoolSize < s.queued d id then some ⟨g, s.frames, s.log ++ [(d, .dropped)]⟩
          else some ⟨g, Function.update s.frames id (s.queued d id + 1),
            s.log ++ [(d, .session id)]⟩
      | some (.returns (g, target)) => some ⟨g, s.frames, s.log ++ [(d, target)]⟩
      | _ => none
  | .sent id n => do
      let _ ← s.gateway.sessions.find id
      if n ≤ s.frames id then some { s with frames := Function.update s.frames id (s.frames id - n) }
      else none
  | .sessions x => do
      let sessions ← s.gateway.sessions.step max x
      pure { s with gateway := ⟨pcbsAfter s.gateway.pcbs x, sessions⟩ }

/-- The datagram is for the mapped DNS. -/
def ToMapdns (m : BitVec 32 × Int) (d : Incoming) : Prop :=
  d.dest.ip = .v4 m.1 ∧ (d.dest.port.toNat : Int) = m.2

/-- A datagram goes to the mapped DNS if it is for it, and to a session if it is not. -/
def Right (m : BitVec 32 × Int) (d : Incoming) (target : Delivery) : Prop :=
  (target = .mappedDns ↔ ToMapdns m d) ∧ (¬ ToMapdns m d → ∃ id, target = .session id)

def Dispatched (m : BitVec 32 × Int) (s : GatewayRun) : Prop := ∀ e ∈ s.log, Right m e.1 e.2

/-- A query comes from a source with a session, the session of the source has a full queue, or an
unknown source sends to the address of the interface. -/
def Misses (m : BitVec 32 × Int) (s : GatewayRun) : Step → Prop
  | .datagram d =>
      match s.gateway.find d.src with
      | some p => ToMapdns m d ∨ ∃ id, p.recv = some (.session id) ∧ udpPoolSize < s.frames id
      | none => isNetifAddr d.dest.ip = true
  | _ => False

theorem isMapdns_iff (m : BitVec 32 × Int) (max : Int) (d : Incoming) :
    (config m max).isMapdns d.dest = true ↔ ToMapdns m d := by
  unfold Gateway.Config.isMapdns config ToMapdns
  cases d.dest.ip with
  | v4 addr =>
      simp only [Bool.and_eq_true, decide_eq_true_eq, IpAddr.v4.injEq]
      exact ⟨fun h => ⟨h.2.symm, h.1.symm⟩, fun h => ⟨h.2.symm, h.1.symm⟩⟩
  | v6 addr => simp
  | any => simp

/-- The pcbs between two datagrams are those of sessions. -/
def SessionPcbs (g : Gateway) : Prop := ∀ p ∈ g.pcbs, ∃ id, p.recv = some (.session id)

/-! ### Where a datagram goes

Two rounds are enough. -/

section input
variable {m : BitVec 32 × Int} {g : Gateway} {d : Incoming}

theorem udpInput_session (c : Gateway.Config) (as : ℕ → Allocs) (n : ℕ) {p : UdpPcb} {id : ℕ}
    (hp : g.find d.src = some p) (hid : p.recv = some (.session id)) :
    udpInput c (n + 1) as g d = some (.returns (g, .session id)) := by
  rw [udpInput, dispatch, hp]
  simp only [hid]

theorem udpInput_netif (c : Gateway.Config) (as : ℕ → Allocs) (n : ℕ) (hfind : g.find d.src = none)
    (hdest : isNetifAddr d.dest.ip = true) :
    udpInput c (n + 1) as g d = some (.returns (g, .dropped)) := by
  rw [udpInput, dispatch, hfind]
  simp only [hdest, if_true]

/-- The pcb of a query takes it in the second round and is removed. -/
theorem udpInput_mapdns (max : Int) (n : ℕ) (hfind : g.find d.src = none)
    (hdest : isNetifAddr d.dest.ip = false) (hdns : ToMapdns m d) :
    udpInput (config m max) (n + 2) (fun _ => Allocs.ok) g d = some (.returns (g, .mappedDns)) := by
  have hmap := (isMapdns_iff m max d).mpr hdns
  have hremote := find_cons ⟨d.src, some .dns⟩ g.pcbs g.sessions
  have hround : dispatch (config m max) Allocs.ok g d =
      .returns ({ g with pcbs := ⟨d.src, some .dns⟩ :: g.pcbs }, none) := by
    simp only [dispatch, hfind, hdest, udpRecvHandler, hmap, udpRecv_cons hfind]
    rfl
  rw [udpInput, hround]
  simp only [udpInput, dispatch, hremote, udpRemove_cons, Allocs.ok, if_true]

/-- The pcb of another datagram is the one of a new session. -/
theorem udpInput_new (max : Int) (n : ℕ) (hfind : g.find d.src = none)
    (hdest : isNetifAddr d.dest.ip = false) (hdns : ¬ ToMapdns m d) :
    udpInput (config m max) (n + 2) (fun _ => Allocs.ok) g d =
      match g.sessions.accept max with
      | none => some .aborts
      | some s => some (.returns (⟨⟨d.src, some (.session g.sessions.next)⟩ :: g.pcbs, s⟩,
          .session g.sessions.next)) := by
  have hmap : (config m max).isMapdns d.dest = false := by
    rw [← Bool.not_eq_true, isMapdns_iff]
    exact hdns
  have hround : dispatch (config m max) Allocs.ok g d =
      match g.sessions.accept max with
      | none => .aborts
      | some s => .returns (⟨⟨d.src, some (.session g.sessions.next)⟩ :: g.pcbs, s⟩, none) := by
    have hmax : (config m max).maxSessions = max := rfl
    simp only [dispatch, hfind, hdest, udpRecvHandler, hmap, udpRecv_cons hfind, hmax]
    cases g.sessions.accept max <;> rfl
  rw [udpInput, hround]
  cases g.sessions.accept max with
  | none => rfl
  | some s =>
      exact udpInput_session _ _ n (find_cons ⟨d.src, some (.session g.sessions.next)⟩ g.pcbs s) rfl

end input

/-! ### One step -/

section step
variable {m : BitVec 32 × Int} {max : Int} {s s' : GatewayRun}

theorem not_right_dropped (m : BitVec 32 × Int) (d : Incoming) : ¬ Right m d .dropped := by
  rintro ⟨hto, hother⟩
  by_cases hdns : ToMapdns m d
  · cases hto.mpr hdns
  · obtain ⟨id, hid⟩ := hother hdns
    cases hid

/-- What a datagram does: it goes to the right place unless it is one that misses. -/
theorem step_datagram {d : Incoming} (hs : SessionPcbs s.gateway)
    (h : step m max s (.datagram d) = some s') :
    SessionPcbs s'.gateway ∧ ∃ target, s'.log = s.log ++ [(d, target)] ∧
      (Right m d target ↔ ¬ Misses m s (.datagram d)) := by
  simp only [step] at h
  simp only [Misses]
  cases hfind : s.gateway.find d.src with
  | some p =>
      obtain ⟨id, hid⟩ := hs p (List.mem_of_find?_eq_some hfind)
      have hqueued : s.queued d id = s.frames id := by simp [queued, hfind]
      rw [udpInput_session _ _ 1 hfind hid] at h
      simp only [hqueued] at h
      split_ifs at h with hfull
      · cases h
        refine ⟨hs, .dropped, rfl, iff_of_false (not_right_dropped m d) ?_⟩
        exact not_not.mpr (.inr ⟨id, hid, hfull⟩)
      · cases h
        refine ⟨hs, .session id, rfl, ?_⟩
        simp only [Right, hid, Option.some.injEq, UdpHandler.session.injEq, exists_eq_left', hfull,
          or_false]
        simp
  | none =>
      have hqueued : ∀ id, s.queued d id = 0 := fun id => by simp [queued, hfind]
      cases hdest : isNetifAddr d.dest.ip with
      | true =>
          rw [udpInput_netif _ _ 1 hfind hdest] at h
          cases h
          exact ⟨hs, .dropped, rfl, iff_of_false (not_right_dropped m d) (by simp)⟩
      | false =>
          by_cases hdns : ToMapdns m d
          · rw [udpInput_mapdns max 0 hfind hdest hdns] at h
            cases h
            refine ⟨hs, .mappedDns, rfl, iff_of_true ?_ (by simp)⟩
            exact ⟨iff_of_true rfl hdns, fun h => absurd hdns h⟩
          · rw [udpInput_new max 0 hfind hdest hdns] at h
            cases haccept : s.gateway.sessions.accept max with
            | none =>
                rw [haccept] at h
                cases h
            | some ss =>
                simp only [haccept, hqueued, Nat.not_lt_zero, if_false] at h
                cases h
                refine ⟨List.forall_mem_cons.mpr ⟨⟨_, rfl⟩, hs⟩, _, rfl, iff_of_true ?_ (by simp)⟩
                exact ⟨iff_of_false (by simp) hdns, fun _ => ⟨_, rfl⟩⟩

theorem SessionPcbs.sessions {x : SessionSet.Step} (hs : SessionPcbs s.gateway)
    (h : step m max s (.sessions x) = some s') : SessionPcbs s'.gateway ∧ s'.log = s.log := by
  simp only [step, Option.bind_eq_bind, Option.bind_eq_some_iff, Option.pure_def,
    Option.some.injEq] at h
  obtain ⟨sessions, -, rfl⟩ := h
  refine ⟨?_, rfl⟩
  cases x with
  | delete id => exact fun p hp => hs p (List.mem_of_mem_filter hp)
  | accept => exact hs
  | update id => exact hs
  | terminate id => exact hs
  | wait id => exact hs

theorem step_sent {id n : ℕ} (h : step m max s (.sent id n) = some s') :
    s'.gateway = s.gateway ∧ s'.log = s.log := by
  simp only [step, Option.bind_eq_bind, Option.bind_eq_some_iff] at h
  obtain ⟨_, -, h⟩ := h
  split_ifs at h
  cases h
  exact ⟨rfl, rfl⟩

end step

/-- In every run, whatever the sources have sent before: all datagrams go where they should exactly if
none misses. -/
theorem everyState_dispatched_iff (m : BitVec 32 × Int) (max : Int) (xs : List Step) :
    EveryState (step m max) (Dispatched m) init xs ↔
      EveryStep (step m max) (fun s x => ¬ Misses m s x) init xs := by
  apply everyState_iff (fun s => Dispatched m s ∧ SessionPcbs s.gateway) And.left
  · rintro s x s' ⟨hlog, hs⟩ h hmiss
    cases x with
    | datagram d =>
        obtain ⟨hs', target, hlog', hright⟩ := step_datagram hs h
        refine ⟨?_, hs'⟩
        rw [Dispatched, hlog']
        exact List.forall_mem_append.mpr ⟨hlog, List.forall_mem_singleton.mpr (hright.mpr hmiss)⟩
    | sent id n =>
        obtain ⟨hg, hlog'⟩ := step_sent h
        rw [Dispatched, hg, hlog']
        exact ⟨hlog, hs⟩
    | sessions x =>
        obtain ⟨hs', hlog'⟩ := hs.sessions h
        rw [Dispatched, hlog']
        exact ⟨hlog, hs'⟩
  · rintro s x s' ⟨-, hs⟩ h hmiss hlog'
    cases x with
    | datagram d =>
        obtain ⟨-, target, hlog, hright⟩ := step_datagram hs h
        have hmem : (d, target) ∈ s'.log := by simp [hlog]
        exact hright.mp (hlog' _ hmem) hmiss
    | sent id n => exact hmiss
    | sessions x => exact hmiss
  · exact ⟨by simp [Dispatched, init], by simp [SessionPcbs, init, Gateway.init]⟩

/-- 198.18.0.2:53. -/
def sampleMapdns : BitVec 32 × Int := (0xc6120002#32, 53)

def sampleQueryDatagram : Incoming := ⟨⟨.v4 0x0a000002, 1000⟩, ⟨.v4 0xc6120002, 53⟩⟩

/-- A source that has sent a datagram to another server gets no answer of the mapped DNS: its query
goes to the session. -/
theorem query_to_session :
    ToMapdns sampleMapdns sampleQueryDatagram ∧
    ∃ s, runSteps (step sampleMapdns 0) init
        [.datagram sampleIncoming, .datagram sampleQueryDatagram] = some s ∧
      s.log = [(sampleIncoming, .session 0), (sampleQueryDatagram, .session 0)] ∧
      ¬ Dispatched sampleMapdns s := by
  have hto : ToMapdns sampleMapdns sampleQueryDatagram := ⟨rfl, rfl⟩
  refine ⟨hto, _, rfl, rfl, fun h => ?_⟩
  have hright := h (sampleQueryDatagram, .session 0) (by decide)
  cases hright.1.mpr hto

end GatewayRun
end HevTunnel
