import HevTunnel.Addr
import HevTunnel.Process

/-! # The SOCKS5 client

The handshake of `hev-socks5-client.c` in its two modes, as a program over the connection to the
server.  In standard mode the client waits for each answer before it goes on; in pipelined mode it
sends everything first.

A function of the source that returns an `int` is a program with that result.  The theorems
`returns_…` say what each of them reads and writes over a connection that stays up. -/

namespace HevTunnel

open Prog

/-- `HevSocks5Type`. -/
inductive SocksType where
  | none
  | tcp
  | udpInTcp
  | udpInUdp
deriving DecidableEq, Repr

/-- The low byte of an `int`. -/
def byteOfInt (x : Int) : Byte := UInt8.ofBitVec (BitVec.ofInt 8 x)

/-- `HevSocks5AddrFamily` of a connection; `hev_socks5_client_connect` always sets one. -/
inductive AddrFamily where
  | ipv4
  | ipv6
deriving DecidableEq, Repr

/-- A client by its type, with what its class adds: the address to connect to, or the family of
the connection to the server. -/
inductive ClientKind where
  | tcp (addr : Addr)
  | udpInTcp (family : AddrFamily)
  | udpInUdp (family : AddrFamily)

namespace ClientKind

def type : ClientKind → SocksType
  | tcp _ => .tcp
  | udpInTcp _ => .udpInTcp
  | udpInUdp _ => .udpInUdp

/-- `req.cmd`. -/
def cmd : ClientKind → Byte
  | tcp _ => 1
  | udpInTcp _ => 5
  | udpInUdp _ => 3

/-- The zeroed address of `hev_socks5_client_udp_get_upstream_addr`. -/
def zeroAddr : AddrFamily → Addr
  | .ipv4 => .ipv4 (Vector.replicate 4 0) 0
  | .ipv6 => .ipv6 (Vector.replicate 16 0) 0

/-- `get_upstream_addr` of the classes. -/
def upstreamAddr : ClientKind → Addr
  | tcp addr => addr
  | udpInTcp family => zeroAddr family
  | udpInUdp family => zeroAddr family

end ClientKind

/-- `HevSocks5Client`; the credentials are `none` for `NULL`. -/
structure Client where
  kind : ClientKind
  user : Option CStr
  pass : Option CStr

/-- What a client does to its surroundings. -/
inductive ClientAct where
  | socket
  | connect (addr : Sockaddr6)

/-- The outcomes of the system calls of a client. -/
structure ClientEnv where
  socket : Bool
  binder : Sockaddr6 → Bool
  connect : Sockaddr6 → Bool

namespace Client

/-- A program of the client. -/
abbrev ClientProg (ρ : Type) := Prog Byte ClientAct ρ

/-- Both parts of the credentials, if they are there. -/
def creds (self : Client) : Option (CStr × CStr) :=
  match self.user, self.pass with
  | some user, some pass => some (user, pass)
  | _, _ => none

/-- The only method a client offers. -/
def method (self : Client) : Byte := if self.creds.isNone then 0 else 2

/-- `hev_socks5_client_write_auth_methods`. -/
def writeAuthMethods (self : Client) : ClientProg Int := do
  let ok ← sendAll [5, 1, self.method]
  if !ok then return -1
  return 0

/-- The bytes of `hev_socks5_client_write_auth_creds`. -/
def credsBytes (user pass : CStr) : List Byte :=
  let ulen := UInt8.ofNat user.bytes.length
  let plen := UInt8.ofNat pass.bytes.length
  [1, ulen] ++ user.bytes.take ulen.toNat ++ [plen] ++ pass.bytes.take plen.toNat

/-- `hev_socks5_client_write_auth_creds`. -/
def writeAuthCreds (self : Client) : ClientProg Int := do
  match self.creds with
  | none => return 0
  | some (user, pass) =>
      let ok ← sendAll (credsBytes user pass)
      if !ok then return -1
      return 0

/-- `hev_socks5_client_write_request`. -/
def writeRequest (self : Client) : ClientProg Int := do
  let ok ← sendAll ([5, self.kind.cmd, 0] ++ self.kind.upstreamAddr.bytes)
  if !ok then return -1
  return 0

/-- `hev_socks5_client_read_auth_method`. -/
def readAuthMethod : ClientProg Int := do
  let some [ver, method] ← recvAll 2 | return -1
  if ver ≠ 5 then return -1
  return method.toNat

/-- `hev_socks5_client_read_auth_creds`. -/
def readAuthCreds : ClientProg Int := do
  let some [ver, rep] ← recvAll 2 | return -1
  if ver ≠ 1 then return -1
  if rep ≠ 0 then return -1
  return 0

/-- `set_upstream_addr` of the classes; the address has no name, so there is nothing to resolve. -/
def setUpstreamAddr (self : Client) (env : ClientEnv) (addr : Addr) : ClientProg Int := do
  if self.kind.type ≠ .udpInUdp then return 0
  let some saddr := addrIntoSockaddr6 (fun _ => none) addr | return -1
  if !env.socket then return -1
  perform .socket
  if !env.binder saddr then return -1
  perform (.connect saddr)
  if !env.connect saddr then return -1
  return 0

/-- The length of the rest of a response. -/
def responseLen (atype : Byte) : Option ℕ :=
  if atype = 1 then some 6
  else if atype = 4 then some 18
  else none

/-- `hev_socks5_client_read_response`, for a `set_upstream_addr`. -/
def readResponseOf (setUpstreamAddr : Addr → ClientProg Int) : ClientProg Int := do
  let some [ver, rep, _, atype] ← recvAll 4 | return -1
  if ver ≠ 5 then return -1
  if rep ≠ 0 then return -1
  let some addrlen := responseLen atype | return -1
  let some data ← recvAll addrlen | return -1
  let some addr := Addr.ofBytes atype data | return -1
  let ret ← setUpstreamAddr addr
  if ret < 0 then return -1
  return 0

def readResponse (self : Client) (env : ClientEnv) : ClientProg Int :=
  readResponseOf (self.setUpstreamAddr env)

/-- `hev_socks5_client_handshake_standard`, for a request and a response; of `self` the credentials are
looked at. -/
def standardOf (self : Client) (writeRequest readResponse : ClientProg Int) : ClientProg Int := do
  let res ← self.writeAuthMethods
  if res < 0 then return -1
  let res ← readAuthMethod
  if res < 0 then return -1
  if res = 2 then
    let res ← self.writeAuthCreds
    if res < 0 then return -1
    let res ← readAuthCreds
    if res < 0 then return -1
  else if res ≠ 0 then return -1
  let res ← writeRequest
  if res < 0 then return -1
  let res ← readResponse
  if res < 0 then return -1
  return 0

def handshakeStandard (self : Client) (env : ClientEnv) : ClientProg Int :=
  self.standardOf self.writeRequest (self.readResponse env)

/-- `hev_socks5_client_handshake_pipeline`, for a request and a response. -/
def pipelineOf (self : Client) (writeRequest readResponse : ClientProg Int) : ClientProg Int := do
  let res ← self.writeAuthMethods
  if res < 0 then return -1
  let res ← self.writeAuthCreds
  if res < 0 then return -1
  let res ← writeRequest
  if res < 0 then return -1
  let res ← readAuthMethod
  if res < 0 then return -1
  if res = 2 then
    let res ← readAuthCreds
    if res < 0 then return -1
  else if res ≠ 0 then return -1
  let res ← readResponse
  if res < 0 then return -1
  return 0

def handshakePipeline (self : Client) (env : ClientEnv) : ClientProg Int :=
  self.pipelineOf self.writeRequest (self.readResponse env)

/-- `hev_socks5_client_handshake` on the connection. -/
def handshake (self : Client) (env : ClientEnv) (pipeline : Bool) : ClientProg Int :=
  if pipeline then self.handshakePipeline env else self.handshakeStandard env

/-- A name or password that the protocol can carry. -/
structure Cred where
  str : CStr
  pos : 0 < str.bytes.length
  le : str.bytes.length ≤ 255

/-- The length of a name or password as its length byte has it. -/
theorem Cred.toNat_length (c : Cred) : (UInt8.ofNat c.str.bytes.length).toNat = c.str.bytes.length := by
  have := c.le
  rw [UInt8.toNat_ofNat']
  omega

theorem Cred.length_ne_zero (c : Cred) : UInt8.ofNat c.str.bytes.length ≠ 0 := by
  intro h
  have := c.toNat_length
  rw [h] at this
  exact absurd this.symm (Nat.ne_of_gt c.pos)

theorem credsBytes_cred (user pass : Cred) : credsBytes user.str pass.str =
    [1, UInt8.ofNat user.str.bytes.length] ++
      ((user.str.bytes ++ [UInt8.ofNat pass.str.bytes.length]) ++ pass.str.bytes) := by
  simp only [credsBytes, user.toNat_length, pass.toNat_length, List.take_length]
  simp

/-! ### What the functions read and write -/

theorem returns_writeAuthMethods (self : Client) :
    Returns self.writeAuthMethods [] [5, 1, self.method] 0 :=
  Returns.send_last (returns_ret _)

theorem returns_writeAuthCreds {self : Client} {user pass : CStr}
    (h : self.creds = some (user, pass)) :
    Returns self.writeAuthCreds [] (credsBytes user pass) 0 := by
  unfold writeAuthCreds
  rw [h]
  exact Returns.send_last (returns_ret _)

theorem returns_writeAuthCreds_none {self : Client} (h : self.creds = none) :
    Returns self.writeAuthCreds [] [] 0 := by
  unfold writeAuthCreds
  rw [h]
  exact returns_ret _

theorem returns_writeRequest (self : Client) :
    Returns self.writeRequest [] ([5, self.kind.cmd, 0] ++ self.kind.upstreamAddr.bytes) 0 :=
  Returns.send_last (returns_ret _)

theorem returns_readAuthMethod (method : Byte) :
    Returns readAuthMethod [5, method] [] (method.toNat : Int) :=
  Returns.recv_last rfl (returns_ret _)

theorem returns_readAuthCreds (rep : Byte) :
    Returns readAuthCreds [1, rep] [] (if rep = 0 then 0 else -1) := by
  refine Returns.recv_last (by rfl) ?_
  show Returns (if rep ≠ 0 then ret (-1) else ret 0) [] [] _
  by_cases hrep : rep = 0
  · rw [if_neg (not_not.mpr hrep), if_pos hrep]
    exact returns_ret _
  · rw [if_pos hrep, if_neg hrep]
    exact returns_ret _

end Client

/-- The system calls of a client succeed. -/
structure ClientEnv.Succeeds (env : ClientEnv) : Prop where
  socket : env.socket = true
  binder : ∀ addr, env.binder addr = true
  connect : ∀ addr, env.connect addr = true

namespace Client

theorem returns_setUpstreamAddr (self : Client) {env : ClientEnv} (henv : env.Succeeds) {addr : Addr}
    (hip : ¬ addr.IsName) : Returns (self.setUpstreamAddr env addr) [] [] 0 := by
  obtain ⟨saddr, hsaddr⟩ : ∃ saddr, addrIntoSockaddr6 (fun _ => none) addr = some saddr := by
    cases addr with
    | ipv4 addr port => exact ⟨_, rfl⟩
    | ipv6 addr port => exact ⟨_, rfl⟩
    | name domain short port => exact absurd trivial hip
  by_cases htype : self.kind.type ≠ .udpInUdp
  · simp only [setUpstreamAddr, if_pos htype]
    exact returns_ret _
  · simp only [setUpstreamAddr, if_neg htype, hsaddr, henv.socket, henv.binder, henv.connect,
      Bool.not_true, Bool.false_eq_true, if_false]
    exact Returns.perform_bind (Returns.perform_bind (returns_ret _))

theorem responseLen_atype {addr : Addr} (hip : ¬ addr.IsName) :
    responseLen addr.atype = some addr.data.length := by
  cases addr with
  | ipv4 addr port => simp [responseLen, Addr.atype, Addr.data]
  | ipv6 addr port => simp [responseLen, Addr.atype, Addr.data]
  | name domain short port => exact absurd trivial hip

/-- A response with an address is read to its end. -/
theorem returns_readResponse (self : Client) {env : ClientEnv} (henv : env.Succeeds) {addr : Addr}
    (hip : ¬ addr.IsName) : Returns (self.readResponse env) ([5, 0, 0] ++ addr.bytes) [] 0 := by
  rw [addr.bytes_eq]
  show Returns _ ([5, 0, 0, addr.atype] ++ addr.data) [] 0
  refine Returns.recv_bind _ (by rfl) ?_
  simp only [responseLen_atype hip, ne_eq, not_true_eq_false, if_false]
  refine Returns.recv_last rfl ?_
  simp only [addr.ofBytes_data]
  exact (self.returns_setUpstreamAddr henv hip).bind (returns_ret _)

/-! ### A handshake that fails -/

theorem failsWith_writeAuthMethods (self : Client) : FailsWith (-1) self.writeAuthMethods :=
  .send_bind rfl trivial

theorem failsWith_writeAuthCreds (self : Client) : FailsWith (-1) self.writeAuthCreds := by
  unfold writeAuthCreds
  cases self.creds with
  | none => exact trivial
  | some creds => exact .send_bind rfl trivial

theorem failsWith_writeRequest (self : Client) : FailsWith (-1) self.writeRequest :=
  .send_bind rfl trivial

theorem failsWith_readAuthMethod : FailsWith (-1) readAuthMethod := by
  refine .recv_bind rfl ?_
  intro inp
  split
  · split_ifs <;> exact trivial
  · exact trivial

theorem failsWith_readAuthCreds : FailsWith (-1) readAuthCreds := by
  refine .recv_bind rfl ?_
  intro inp
  split
  · split_ifs <;> exact trivial
  · exact trivial

theorem failsWith_setUpstreamAddr (self : Client) (env : ClientEnv) (addr : Addr) :
    FailsWith (-1) (self.setUpstreamAddr env addr) := by
  unfold setUpstreamAddr
  cases addrIntoSockaddr6 (fun _ => none) addr with
  | none => split_ifs <;> exact trivial
  | some saddr =>
      dsimp only
      cases env.binder saddr <;> cases env.connect saddr <;> split_ifs <;> exact trivial

theorem failsWith_readResponse (self : Client) (env : ClientEnv) :
    FailsWith (-1) (self.readResponse env) := by
  refine .recv_bind rfl ?_
  intro head
  split
  · split_ifs
    · exact trivial
    · exact trivial
    · cases responseLen _ with
      | none => exact trivial
      | some addrlen =>
          refine .recv_bind rfl ?_
          intro data
          dsimp only
          cases Addr.ofBytes _ data with
          | none => exact trivial
          | some addr =>
              refine (self.failsWith_setUpstreamAddr env addr).bind rfl ?_
              intro ret
              split_ifs <;> exact trivial
  · exact trivial

/-- A function that is called for its result, which is negative if it fails. -/
theorem failsWith_call {p k : ClientProg Int} (hp : FailsWith (-1) p) (hk : FailsWith (-1) k) :
    FailsWith (-1) (p >>= fun res => if res < 0 then .ret (-1) else k) := by
  refine hp.bind rfl ?_
  intro res
  split_ifs
  · exact trivial
  · exact hk

theorem failsWith_handshakeStandard (self : Client) (env : ClientEnv) :
    FailsWith (-1) (self.handshakeStandard env) := by
  have hlast := failsWith_call self.failsWith_writeRequest
    (failsWith_call (self.failsWith_readResponse env) (k := .ret 0) trivial)
  refine failsWith_call self.failsWith_writeAuthMethods (failsWith_readAuthMethod.bind rfl ?_)
  intro method
  dsimp only
  split_ifs
  · exact trivial
  · exact failsWith_call self.failsWith_writeAuthCreds (failsWith_call failsWith_readAuthCreds hlast)
  · exact trivial
  · exact hlast

theorem failsWith_handshakePipeline (self : Client) (env : ClientEnv) :
    FailsWith (-1) (self.handshakePipeline env) := by
  have hlast := failsWith_call (self.failsWith_readResponse env) (k := .ret 0) trivial
  refine failsWith_call self.failsWith_writeAuthMethods (failsWith_call self.failsWith_writeAuthCreds
    (failsWith_call self.failsWith_writeRequest (failsWith_readAuthMethod.bind rfl ?_)))
  intro method
  dsimp only
  split_ifs
  · exact trivial
  · exact failsWith_call failsWith_readAuthCreds hlast
  · exact trivial
  · exact hlast

/-- A read or a write that fails ends the handshake. -/
theorem failsWith_handshake (self : Client) (env : ClientEnv) (pipeline : Bool) :
    FailsWith (-1) (self.handshake env pipeline) := by
  cases pipeline with
  | true => exact self.failsWith_handshakePipeline env
  | false => exact self.failsWith_handshakeStandard env

end Client

end HevTunnel
