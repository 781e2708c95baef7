import Mathlib.Algebra.Order.Group.Multiset
import HevTunnel.MappedDNS
import HevTunnel.Transition

/-! # Start and stop of the tunnel

`hev_socks5_tunnel_init` acquires the device, the pcbs of the gateway, the event descriptors, three
tasks and the mapped DNS.  When one of its steps fails, it calls `hev_socks5_tunnel_fini`, which
releases what the variables refer to.

* `Tunnel` has these variables, the references that the process holds, and those that were released
  without being held.  `Accounted`: exactly what the variables refer to is held.
* `TunnelRun` are runs of starts, each with the outcome of every call it makes, and stops.
* `TunnelRun.everyState_asFresh_iff`: a stopped tunnel is as in a fresh process exactly if no start
  fails between the opening of the device and the end of its set-up, none has a descriptor of the
  caller that it takes over, and none fails to get a device after an earlier one has got it. -/

namespace HevTunnel

/-- What the tunnel acquires; a task is held once for each reference to it. -/
inductive Resource where
  | fd (fd : ℕ)
  | task (p : ℕ)
  | mappedDns (p : ℕ)
  | udpPcb (p : ℕ)
  | tcpPcb (p : ℕ)
deriving DecidableEq

/-- The variables of `hev-socks5-tunnel.c` and the singleton of `hev-mapped-dns.c`; `none` is -1 for a
descriptor and `NULL` for a pointer. -/
structure Tunnel where
  tunFd : Option ℕ
  tunFdLocal : Bool
  eventFds : Option ℕ × Option ℕ
  taskEvent : Option ℕ
  taskLwipIo : Option ℕ
  taskLwipTimer : Option ℕ
  mappedDns : Option ℕ
  tcp : Option ℕ
  udp : Option ℕ
  /-- The interface is in `netif_list`. -/
  netif : Bool
  held : Multiset Resource
  /-- What has been released without being held. -/
  stale : Multiset Resource
deriving DecidableEq

/-- One start: the descriptor of the caller, the configuration it reads, and the outcome of each call
it makes. -/
structure Attempt where
  /-- The argument, if it is not negative. -/
  fd : Option ℕ
  nonblock : Bool
  /-- `hev_tunnel_open`. -/
  device : Option ℕ
  mtu : Bool
  /-- `hev_tunnel_set_ipv4`, if an address is configured. -/
  ipv4 : Option Bool
  ipv6 : Option Bool
  state : Bool
  tcp : ℕ
  udp : ℕ
  eventFds : Option (ℕ × ℕ)
  eventNonblock : Bool
  taskEvent : Option ℕ
  taskLwipIo : Option ℕ
  taskLwipTimer : Option ℕ
  network : BitVec 32
  netmask : BitVec 32
  cacheSize : Int
  /-- The memory for the mapped DNS. -/
  mappedDns : Option ℕ
deriving DecidableEq

namespace Attempt

/-- `tunnel_init` succeeds. -/
def tunnelUp (x : Attempt) : Bool :=
  match x.fd with
  | some _ => x.nonblock
  | none => x.device.isSome && x.mtu && x.ipv4 != some false && x.ipv6 != some false && x.state

/-- The steps after the one for the gateway succeed. -/
def tasksUp (x : Attempt) : Bool :=
  x.eventFds.isSome && x.eventNonblock && x.taskEvent.isSome && x.taskLwipIo.isSome &&
    x.taskLwipTimer.isSome && (x.cacheSize = 0 ||
      (x.mappedDns.isSome && (MappedDNS.construct x.network x.netmask x.cacheSize).isSome))

end Attempt

namespace Tunnel

/-- A fresh process. -/
def fresh : Tunnel :=
  ⟨none, false, (none, none), none, none, none, none, none, none, false, 0, 0⟩

/-- What a variable refers to. -/
def handle (f : ℕ → Resource) : Option ℕ → Multiset Resource
  | none => 0
  | some p => {f p}

theorem handle_none (f : ℕ → Resource) : handle f none = 0 := rfl

def acquire (s : Tunnel) (f : ℕ → Resource) (o : Option ℕ) : Tunnel :=
  { s with held := handle f o + s.held }

/-- Releases what a variable refers to, if it refers to something. -/
def release (s : Tunnel) (f : ℕ → Resource) : Option ℕ → Tunnel
  | none => s
  | some p =>
      if f p ∈ s.held then { s with held := s.held.erase (f p) }
      else { s with stale := f p ::ₘ s.stale }

/-! ### Start

A function that returns -1 is an error, with the state that it leaves. -/

def tunnelInit (x : Attempt) (s : Tunnel) : Except Tunnel Tunnel :=
  match x.fd with
  | some fd => if x.nonblock = false then .error s else .ok { s with tunFd := some fd }
  | none =>
      let s := { s.acquire .fd x.device with tunFd := x.device }
      if x.device = none then .error s
      else if x.mtu = false then .error s
      else if x.ipv4 = some false then .error s
      else if x.ipv6 = some false then .error s
      else if x.state = false then .error s
      else .ok { s with tunFdLocal := true }

/-- The pcb that `tcp_listen` replaces is left out. -/
def gatewayInit (x : Attempt) (s : Tunnel) : Tunnel :=
  { (s.acquire .tcpPcb (some x.tcp)).acquire .udpPcb (some x.udp) with
    netif := true, tcp := some x.tcp, udp := some x.udp }

def eventTaskInit (x : Attempt) (s : Tunnel) : Except Tunnel Tunnel :=
  match x.eventFds with
  | none => .error s
  | some (fd₀, fd₁) =>
      let s := { (s.acquire .fd (some fd₁)).acquire .fd (some fd₀) with
        eventFds := (some fd₀, some fd₁) }
      if x.eventNonblock = false then .error s
      else
        let s := { s.acquire .task x.taskEvent with taskEvent := x.taskEvent }
        if x.taskEvent = none then .error s else .ok s

def lwipIoTaskInit (x : Attempt) (s : Tunnel) : Except Tunnel Tunnel :=
  let s := { s.acquire .task x.taskLwipIo with taskLwipIo := x.taskLwipIo }
  if x.taskLwipIo = none then .error s else .ok s

def lwipTimerTaskInit (x : Attempt) (s : Tunnel) : Except Tunnel Tunnel :=
  let s := { s.acquire .task x.taskLwipTimer with taskLwipTimer := x.taskLwipTimer }
  if x.taskLwipTimer = none then .error s else .ok s

/-- A mapped DNS that is refused by its constructor is freed at once. -/
def mappedDnsInit (x : Attempt) (s : Tunnel) : Except Tunnel Tunnel :=
  if x.cacheSize = 0 then .ok s
  else if x.mappedDns = none then .error s
  else if (MappedDNS.construct x.network x.netmask x.cacheSize).isNone then .error s
  else .ok { s.acquire .mappedDns x.mappedDns with mappedDns := x.mappedDns }

/-! ### Stop -/

def mappedDnsFini (s : Tunnel) : Tunnel :=
  { s.release .mappedDns s.mappedDns with mappedDns := none }

def lwipTimerTaskFini (s : Tunnel) : Tunnel :=
  { s.release .task s.taskLwipTimer with taskLwipTimer := none }

def lwipIoTaskFini (s : Tunnel) : Tunnel :=
  { s.release .task s.taskLwipIo with taskLwipIo := none }

def eventTaskFini (s : Tunnel) : Tunnel :=
  let s := { s.release .task s.taskEvent with taskEvent := none }
  { (s.release .fd s.eventFds.1).release .fd s.eventFds.2 with eventFds := (none, none) }

/-- The pointers to the pcbs keep their values, and `netif_remove` does nothing if the interface is
not in the list. -/
def gatewayFini (s : Tunnel) : Tunnel :=
  { (s.release .udpPcb s.udp).release .tcpPcb s.tcp with netif := false }

def tunnelFini (s : Tunnel) : Tunnel :=
  if s.tunFdLocal = false then s
  else { s.release .fd s.tunFd with tunFdLocal := false, tunFd := none }

/-- `hev_socks5_tunnel_fini`. -/
def fini (s : Tunnel) : Tunnel :=
  tunnelFini (gatewayFini (eventTaskFini (lwipIoTaskFini (lwipTimerTaskFini (mappedDnsFini s)))))

/-- The steps of a start after the one for the gateway. -/
def tasksInit (x : Attempt) (s : Tunnel) : Except Tunnel Tunnel := do
  let s ← eventTaskInit x s
  let s ← lwipIoTaskInit x s
  let s ← lwipTimerTaskInit x s
  mappedDnsInit x s

/-- `hev_socks5_tunnel_init`: the result and the state. -/
def init (s : Tunnel) (x : Attempt) : Int × Tunnel :=
  match (do let s ← tunnelInit x s; tasksInit x (gatewayInit x s)) with
  | .ok s => (0, s)
  | .error s => (-1, fini s)

/-- `hev_socks5_tunnel_run`: each task has a second reference until it ends.  The tasks of the sessions
have ended too when it returns, so what the sessions acquire is left out. -/
def run (s : Tunnel) : Tunnel :=
  let s := ((s.acquire .task s.taskEvent).acquire .task s.taskLwipIo).acquire .task s.taskLwipTimer
  ((s.release .task s.taskLwipTimer).release .task s.taskLwipIo).release .task s.taskEvent

/-- All is as in a fresh process, but for the pointers to the pcbs. -/
def Clean (s : Tunnel) : Prop := ∃ tcp udp, s = { fresh with tcp := tcp, udp := udp }

/-- What the variables refer to. -/
def refs (s : Tunnel) : Multiset Resource :=
  handle .mappedDns s.mappedDns + (handle .task s.taskLwipTimer + (handle .task s.taskLwipIo +
    (handle .task s.taskEvent + (handle .fd s.eventFds.1 + (handle .fd s.eventFds.2 +
      (handle .udpPcb s.udp + (handle .tcpPcb s.tcp +
        if s.tunFdLocal then handle .fd s.tunFd else 0)))))))

/-- Exactly what the variables refer to is held. -/
structure Accounted (s : Tunnel) : Prop where
  held : s.held = s.refs
  stale : s.stale = 0

/-! ### The clean-up -/

section fini
variable {s : Tunnel} {f g : ℕ → Resource} {o o' : Option ℕ} {rest : Multiset Resource}

theorem release_of_held (h : s.held = handle f o + rest) :
    s.release f o = { s with held := rest } := by
  cases o with
  | none =>
      obtain rfl : s.held = rest := by simpa [handle] using h
      rfl
  | some p =>
      have hheld : s.held = f p ::ₘ rest := by simpa [handle] using h
      simp [release, hheld]

theorem release_acquire (s : Tunnel) (f : ℕ → Resource) (o : Option ℕ) :
    (s.acquire f o).release f o = s := release_of_held rfl

theorem release_release_of_held (h : s.held = handle f o + (handle g o' + rest)) :
    (s.release f o).release g o' = { s with held := rest } := by
  rw [release_of_held h, release_of_held rfl]

theorem release_device (s : Tunnel) (f : ℕ → Resource) (o : Option ℕ) :
    (s.release f o).tunFd = s.tunFd ∧ (s.release f o).tunFdLocal = s.tunFdLocal := by
  cases o with
  | none => exact ⟨rfl, rfl⟩
  | some p =>
      simp only [release]
      split_ifs <;> exact ⟨rfl, rfl⟩

/-- A device without the flag is kept. -/
theorem fini_tunFd (h : s.tunFdLocal = false) : s.fini.tunFd = s.tunFd := by
  simp [fini, tunnelFini, gatewayFini, eventTaskFini, lwipIoTaskFini, lwipTimerTaskFini, mappedDnsFini,
    release_device, h]

theorem mappedDnsFini_of_held (h : s.held = handle .mappedDns s.mappedDns + rest) :
    s.mappedDnsFini = { s with mappedDns := none, held := rest } := by
  rw [mappedDnsFini, release_of_held h]

theorem lwipTimerTaskFini_of_held (h : s.held = handle .task s.taskLwipTimer + rest) :
    s.lwipTimerTaskFini = { s with taskLwipTimer := none, held := rest } := by
  rw [lwipTimerTaskFini, release_of_held h]

theorem lwipIoTaskFini_of_held (h : s.held = handle .task s.taskLwipIo + rest) :
    s.lwipIoTaskFini = { s with taskLwipIo := none, held := rest } := by
  rw [lwipIoTaskFini, release_of_held h]

theorem eventTaskFini_of_held (h : s.held = handle .task s.taskEvent +
      (handle .fd s.eventFds.1 + (handle .fd s.eventFds.2 + rest))) :
    s.eventTaskFini = { s with taskEvent := none, eventFds := (none, none), held := rest } := by
  rw [eventTaskFini, release_of_held h, release_release_of_held rfl]

theorem gatewayFini_of_held
    (h : s.held = handle .udpPcb s.udp + (handle .tcpPcb s.tcp + rest)) :
    s.gatewayFini = { s with netif := false, held := rest } := by
  rw [gatewayFini, release_release_of_held h]

theorem tunnelFini_of_held (h : s.held = if s.tunFdLocal then handle .fd s.tunFd else 0) :
    s.tunnelFini = { s with
      tunFdLocal := false, tunFd := bif s.tunFdLocal then none else s.tunFd, held := 0 } := by
  cases hlocal : s.tunFdLocal with
  | false =>
      rw [hlocal] at h
      simp only [tunnelFini, hlocal, if_true, cond_false]
      cases s
      simp_all
  | true =>
      have hheld : s.held = handle .fd s.tunFd + 0 := by simpa [hlocal] using h
      simp only [tunnelFini, hlocal, Bool.true_eq_false, if_false, cond_true, release_of_held hheld]

/-- The clean-up copes with every state whose references are accounted for: it releases them all, and
keeps a descriptor of the caller. -/
theorem Accounted.fini_eq (hs : s.Accounted) :
    s.fini = { fresh with
      tcp := s.tcp, udp := s.udp, tunFd := bif s.tunFdLocal then none else s.tunFd } := by
  obtain ⟨hheld, hstale⟩ := hs
  rw [fini, mappedDnsFini_of_held hheld, lwipTimerTaskFini_of_held rfl, lwipIoTaskFini_of_held rfl,
    eventTaskFini_of_held rfl, gatewayFini_of_held rfl, tunnelFini_of_held rfl]
  simp [fresh, hstale]

/-- From a clean state the pcbs of an earlier start are released again. -/
theorem Clean.fini_eq (hs : s.Clean) :
    s.fini = { s with stale := handle .tcpPcb s.tcp + handle .udpPcb s.udp } := by
  obtain ⟨tcp, udp, rfl⟩ := hs
  -- there is nothing else to release
  show tunnelFini (gatewayFini { fresh with tcp := tcp, udp := udp }) = _
  cases tcp <;> cases udp <;> rfl

end fini

/-! ### The start -/

section init
variable {x : Attempt} {s : Tunnel}

/-- The state after `gateway_init`. -/
def opened (x : Attempt) : Tunnel :=
  gatewayInit x { fresh with
    tunFd := x.fd.or x.device, tunFdLocal := x.fd.isNone,
    held := if x.fd.isNone then handle .fd x.device else 0 }

/-- With a device a start does not depend on the clean state before it. -/
theorem gatewayInit_of_clean (hs : s.Clean) (h : x.tunnelUp = true) :
    ∃ s', tunnelInit x s = .ok s' ∧ gatewayInit x s' = opened x := by
  obtain ⟨tcp, udp, rfl⟩ := hs
  unfold Attempt.tunnelUp at h
  unfold tunnelInit
  cases hfd : x.fd with
  | some fd =>
      simp only [hfd] at h
      refine ⟨_, if_neg (by simp [h]), ?_⟩
      simp [gatewayInit, opened, hfd, acquire, fresh]
  | none =>
      simp only [hfd, Bool.and_eq_true, bne_iff_ne, Option.isSome_iff_ne_none] at h
      obtain ⟨⟨⟨⟨hdevice, hmtu⟩, h4⟩, h6⟩, hstate⟩ := h
      refine ⟨_, by simp [hdevice, hmtu, h4, h6, hstate]; rfl, ?_⟩
      simp [gatewayInit, opened, hfd, acquire, fresh]

/-- Without a device the clean state stays, but for a device that has been opened. -/
theorem tunnelInit_of_clean (hs : s.Clean) (h : x.tunnelUp = false) :
    ∃ s', tunnelInit x s = .error s' ∧ s'.tunFdLocal = false ∧
      (x.fd = none → s'.tunFd = x.device) ∧ (¬ (x.fd = none ∧ x.device ≠ none) → s' = s) := by
  obtain ⟨tcp, udp, rfl⟩ := hs
  unfold Attempt.tunnelUp at h
  unfold tunnelInit
  cases hfd : x.fd with
  | some fd =>
      simp only [hfd] at h
      exact ⟨_, if_pos h, rfl, by simp, fun _ => rfl⟩
  | none =>
      refine ⟨{ fresh with
        tcp := tcp, udp := udp, held := handle .fd x.device, tunFd := x.device }, ?_, rfl, fun _ => rfl, ?_⟩
      · simp only [hfd, Bool.and_eq_false_iff] at h
        simp only [acquire, fresh]
        split_ifs <;> simp_all
      · intro hdevice
        have hnone : x.device = none := by simpa using hdevice
        rw [hnone]
        rfl

/-! Each later step keeps the references accounted for, whether it fails or not. -/

theorem opened_accounted (x : Attempt) : (opened x).Accounted := by
  refine ⟨?_, rfl⟩
  cases hfd : x.fd <;> simp [opened, gatewayInit, acquire, refs, handle, fresh, hfd]

/-- A variable that a step after the gateway sets. -/
inductive Slot where
  | eventFd₀
  | eventFd₁
  | taskEvent
  | taskLwipIo
  | taskLwipTimer
  | mappedDns

/-- What the variable refers to. -/
def Slot.kind : Slot → ℕ → Resource
  | eventFd₀ | eventFd₁ => .fd
  | taskEvent | taskLwipIo | taskLwipTimer => .task
  | mappedDns => .mappedDns

def Slot.get (s : Tunnel) : Slot → Option ℕ
  | eventFd₀ => s.eventFds.1
  | eventFd₁ => s.eventFds.2
  | taskEvent => s.taskEvent
  | taskLwipIo => s.taskLwipIo
  | taskLwipTimer => s.taskLwipTimer
  | mappedDns => s.mappedDns

def Slot.set (s : Tunnel) (o : Option ℕ) : Slot → Tunnel
  | eventFd₀ => { s with eventFds := (o, s.eventFds.2) }
  | eventFd₁ => { s with eventFds := (s.eventFds.1, o) }
  | taskEvent => { s with taskEvent := o }
  | taskLwipIo => { s with taskLwipIo := o }
  | taskLwipTimer => { s with taskLwipTimer := o }
  | mappedDns => { s with mappedDns := o }

theorem Accounted.set (hs : s.Accounted) (v : Slot) (hnone : v.get s = none) (o : Option ℕ) :
    Accounted (v.set (s.acquire v.kind o) o) := by
  cases v <;> simp only [Slot.get] at hnone <;>
    exact ⟨by simp only [Slot.set, Slot.kind, acquire, hs.held, refs, hnone, handle_none, zero_add,
      add_left_comm], hs.stale⟩

/-- All references are accounted for, and the device is the one of the start. -/
structure Up (x : Attempt) (s : Tunnel) : Prop where
  accounted : s.Accounted
  tunFd : s.tunFd = x.fd.or x.device
  tunFdLocal : s.tunFdLocal = x.fd.isNone

/-- Each step fails, or the start goes on with the next one. -/
theorem tasksInit_cases (x : Attempt) :
    (x.tasksUp = true ∧ ∃ s, tasksInit x (opened x) = .ok s ∧ Up x s) ∨
    (x.tasksUp = false ∧ ∃ s, tasksInit x (opened x) = .error s ∧ Up x s) := by
  have h₀ := opened_accounted x
  unfold tasksInit eventTaskInit lwipIoTaskInit lwipTimerTaskInit mappedDnsInit Attempt.tasksUp
  rcases x.eventFds with _ | ⟨fd₀, fd₁⟩
  · exact .inr ⟨rfl, _, rfl, h₀, rfl, rfl⟩
  have h₁ := (h₀.set .eventFd₁ rfl (some fd₁)).set .eventFd₀ rfl (some fd₀)
  cases x.eventNonblock
  · exact .inr ⟨rfl, _, rfl, h₁, rfl, rfl⟩
  rcases x.taskEvent with _ | p₁
  · exact .inr ⟨rfl, _, rfl, h₁.set .taskEvent rfl none, rfl, rfl⟩
  have h₂ := h₁.set .taskEvent rfl (some p₁)
  rcases x.taskLwipIo with _ | p₂
  · exact .inr ⟨rfl, _, rfl, h₂.set .taskLwipIo rfl none, rfl, rfl⟩
  have h₃ := h₂.set .taskLwipIo rfl (some p₂)
  rcases x.taskLwipTimer with _ | p₃
  · exact .inr ⟨rfl, _, rfl, h₃.set .taskLwipTimer rfl none, rfl, rfl⟩
  have h₄ := h₃.set .taskLwipTimer rfl (some p₃)
  by_cases hsize : x.cacheSize = 0
  · exact .inl ⟨by simp [hsize], _, if_pos hsize, h₄, rfl, rfl⟩
  rcases x.mappedDns with _ | p₄
  · exact .inr ⟨by simp [hsize], _, if_neg hsize, h₄, rfl, rfl⟩
  rcases MappedDNS.construct x.network x.netmask x.cacheSize with _ | d
  · exact .inr ⟨by simp [hsize], _, if_neg hsize, h₄, rfl, rfl⟩
  · exact .inl ⟨by simp, _, if_neg hsize, h₄.set .mappedDns rfl (some p₄), rfl, rfl⟩

/-- After a start with a device, the clean-up leaves a clean state unless the device is the
caller's. -/
theorem Up.clean_fini_iff (h : Up x s) : s.fini.Clean ↔ x.fd = none := by
  rw [h.accounted.fini_eq, h.tunFd, h.tunFdLocal]
  cases x.fd with
  | none => exact iff_of_true ⟨s.tcp, s.udp, rfl⟩ rfl
  | some fd =>
      refine iff_of_false ?_ (by simp)
      rintro ⟨tcp, udp, h⟩
      cases congrArg Tunnel.tunFd h

theorem init_of_up (hs : s.Clean) (h : x.tunnelUp = true) :
    s.init x = match tasksInit x (opened x) with
      | .ok s => (0, s)
      | .error s => (-1, fini s) := by
  obtain ⟨s', htunnel, hgateway⟩ := gatewayInit_of_clean hs h
  rw [init, htunnel]
  show (match tasksInit x (gatewayInit x s') with | .ok s => (0, s) | .error s => (-1, fini s)) = _
  rw [hgateway]

/-- What a start with a device does. -/
theorem init_cases (hs : s.Clean) (h : x.tunnelUp = true) :
    (x.tasksUp = true ∧ ∃ s', s.init x = (0, s') ∧ Up x s') ∨
    (x.tasksUp = false ∧ ∃ s', s.init x = (-1, s'.fini) ∧ Up x s') := by
  rw [init_of_up hs h]
  rcases tasksInit_cases x with ⟨htasks, s', hs', hup⟩ | ⟨htasks, s', hs', hup⟩
  · exact .inl ⟨htasks, s', by rw [hs'], hup⟩
  · exact .inr ⟨htasks, s', by rw [hs'], hup⟩

/-- A start without a device leaves a clean state exactly if there is no device it has opened, and
there are no pcbs of an earlier start. -/
theorem init_of_down (hs : s.Clean) (h : x.tunnelUp = false) :
    ∃ s', s.init x = (-1, s') ∧
      (s'.Clean ↔ ¬ (x.fd = none ∧ x.device ≠ none) ∧ s.udp = none ∧ s.tcp = none) := by
  obtain ⟨s', htunnel, hlocal, hdevice, hsame⟩ := tunnelInit_of_clean hs h
  refine ⟨s'.fini, by rw [init, htunnel]; rfl, ?_⟩
  by_cases hopen : x.fd = none ∧ x.device ≠ none
  · -- the flag for the device is not set, so it stays
    refine iff_of_false ?_ (fun h => h.1 hopen)
    rintro ⟨tcp, udp, hclean⟩
    have hfd := fini_tunFd hlocal
    rw [hclean, hdevice hopen.1] at hfd
    exact hopen.2 hfd.symm
  · obtain rfl := hsame hopen
    rw [hs.fini_eq]
    obtain ⟨tcp, udp, rfl⟩ := hs
    constructor
    · rintro ⟨tcp', udp', hclean⟩
      have hstale := congrArg Tunnel.stale hclean
      refine ⟨hopen, ?_⟩
      cases tcp <;> cases udp <;> simp_all [handle, fresh]
    · rintro ⟨-, hudp, htcp⟩
      exact ⟨none, none, by simp_all [handle, fresh]⟩

end init

/-- The references that a run takes are given back. -/
theorem run_eq (s : Tunnel) : s.run = s := by
  show (((((s.acquire .task s.taskEvent).acquire .task s.taskLwipIo).acquire .task
    s.taskLwipTimer).release .task s.taskLwipTimer).release .task s.taskLwipIo).release .task
    s.taskEvent = s
  rw [release_acquire, release_acquire, release_acquire]

end Tunnel

/-- The tunnel, and whether it has been started. -/
structure TunnelRun where
  tunnel : Tunnel
  started : Bool

namespace TunnelRun

open Tunnel (fresh)

inductive Step where
  | init (x : Attempt)
  | run
  | fini

def init : TunnelRun := ⟨fresh, false⟩

def step (s : TunnelRun) : Step → Option TunnelRun
  | .init x =>
      if s.started then none
      else some ⟨(s.tunnel.init x).2, (s.tunnel.init x).1 = 0⟩
  | .run => if s.started then some ⟨s.tunnel.run, true⟩ else none
  | .fini => if s.started then some ⟨s.tunnel.fini, false⟩ else none

/-- A tunnel that is not started holds nothing, its variables have their initial values, and the next
start has the result and the state that it has in a fresh process. -/
def AsFresh (s : TunnelRun) : Prop :=
  s.started = false → s.tunnel.Clean ∧
    ∀ x, (s.tunnel.init x).1 = (fresh.init x).1 ∧
      ((fresh.init x).1 = 0 → s.tunnel.init x = fresh.init x)

/-- A start gets no device, but has opened one or comes after one that has got to the gateway; a start
with a device of the caller fails later; or a tunnel with a device of the caller is stopped. -/
def Spoils (s : TunnelRun) : Step → Prop
  | .init x =>
      (x.tunnelUp = false ∧
        ((x.fd = none ∧ x.device ≠ none) ∨ s.tunnel.udp ≠ none ∨ s.tunnel.tcp ≠ none)) ∨
      (x.tunnelUp = true ∧ x.fd ≠ none ∧ x.tasksUp = false)
  | .run => False
  | .fini => s.tunnel.tunFdLocal = false

/-- A stopped tunnel is clean, a started one has all its references. -/
def Inv (s : TunnelRun) : Prop :=
  (s.started = false → s.tunnel.Clean) ∧ (s.started = true → ∃ x, s.tunnel.Up x)

section step
variable {s s' : TunnelRun} {x : Step}

/-- A start from a clean state is one of a fresh process. -/
theorem Inv.asFresh (hs : s.Inv) : s.AsFresh := by
  intro hstopped
  have hclean := hs.1 hstopped
  have hfresh : fresh.Clean := ⟨none, none, rfl⟩
  refine ⟨hclean, fun x => ?_⟩
  cases hup : x.tunnelUp with
  | true =>
      have heq : s.tunnel.init x = fresh.init x := by
        rw [Tunnel.init_of_up hclean hup, Tunnel.init_of_up hfresh hup]
      exact ⟨by rw [heq], fun _ => heq⟩
  | false =>
      obtain ⟨t, ht, -⟩ := Tunnel.init_of_down hclean hup
      obtain ⟨t', ht', -⟩ := Tunnel.init_of_down hfresh hup
      rw [ht, ht']
      exact ⟨rfl, fun h => by cases h⟩

/-- A started tunnel has all its references, and a stopped one is clean unless the step has spoiled
it. -/
theorem Inv.step_cases (hs : s.Inv) (h : s.step x = some s') :
    (s'.started = true → ∃ x, s'.tunnel.Up x) ∧
    ((s'.started = false → s'.tunnel.Clean) ↔ ¬ s.Spoils x) := by
  obtain ⟨hclean, hup⟩ := hs
  cases x with
  | init x =>
      simp only [step] at h
      split_ifs at h with hstarted
      cases h
      have hclean := hclean (by simpa using hstarted)
      cases htunnel : x.tunnelUp with
      | false =>
          obtain ⟨t, ht, hiff⟩ := Tunnel.init_of_down hclean htunnel
          rw [ht]
          refine ⟨by simp, ?_⟩
          simp only [Spoils, htunnel, hiff]
          simp [not_or]
      | true =>
          rcases Tunnel.init_cases hclean htunnel with ⟨htasks, t, ht, hx⟩ | ⟨htasks, t, ht, hx⟩
          · rw [ht]
            exact ⟨fun _ => ⟨x, hx⟩, by simp [Spoils, htunnel, htasks]⟩
          · rw [ht]
            refine ⟨by simp, ?_⟩
            simp only [Spoils, htunnel, htasks, hx.clean_fini_iff]
            simp
  | run =>
      simp only [step, Tunnel.run_eq] at h
      split_ifs at h with hstarted
      cases h
      exact ⟨fun _ => hup hstarted, by simp [Spoils]⟩
  | fini =>
      simp only [step] at h
      split_ifs at h with hstarted
      cases h
      obtain ⟨x, hx⟩ := hup hstarted
      refine ⟨by simp, ?_⟩
      simp only [Spoils, hx.clean_fini_iff, hx.tunFdLocal]
      simp

end step

/-- In every run of starts and stops, whichever call of a start fails: a tunnel that is not started is
as in a fresh process exactly if no step spoils it. -/
theorem everyState_asFresh_iff (xs : List Step) :
    EveryState step AsFresh init xs ↔ EveryStep step (fun s x => ¬ s.Spoils x) init xs := by
  apply everyState_iff Inv Inv.asFresh
  · intro s x s' hs h hspoils
    obtain ⟨hup, hiff⟩ := hs.step_cases h
    exact ⟨hiff.mpr hspoils, hup⟩
  · intro s x s' hs h hspoils hfresh
    exact (hs.step_cases h).2.mp (fun hstopped => (hfresh hstopped).1) hspoils
  · exact ⟨fun _ => ⟨none, none, rfl⟩, fun h => by cases h⟩

/-- All calls of a start succeed. -/
def sampleAttempt : Attempt :=
  ⟨none, true, some 5, true, some true, none, true, 1, 2, some (6, 7), true, some 3, some 4, some 8,
    0x64400000#32, 0xffc00000#32, 10000, some 9⟩

/-- When the MTU cannot be set, the device stays open and `tun_fd` keeps its descriptor. -/
theorem mtu_failure_leaks :
    ∃ s, runSteps step init [.init { sampleAttempt with mtu := false }] = some s ∧
      s.started = false ∧ s.tunnel.tunFd = some 5 ∧ s.tunnel.held = {.fd 5} ∧ ¬ s.AsFresh := by
  refine ⟨_, rfl, rfl, rfl, rfl, fun h => ?_⟩
  obtain ⟨⟨tcp, udp, hclean⟩, -⟩ := h rfl
  cases congrArg Tunnel.tunFd hclean

end TunnelRun
end HevTunnel
