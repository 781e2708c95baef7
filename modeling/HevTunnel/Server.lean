import HevTunnel.Authenticator
import HevTunnel.Client

/-! # The SOCKS5 server

The handshake of `hev-socks5-server.c` as a program over the connection to the client.  The server
chooses the authentication method, checks the credentials if it has an authenticator, reads the
request, opens its sockets and answers.

* `ServerEnv` holds the outcomes of the system calls and of the name resolution, and the contents
  of the stack where the source answers with an address it has not set.
* The actions of the program are the sockets it opens and that it comes to read a request. -/

namespace HevTunnel

open Prog

/-- What a server does to its surroundings; `readRequest` marks where it starts to read the
request. -/
inductive ServerAct where
  | readRequest
  | socketStream
  | socketDgram
  | connect (addr : Sockaddr6)
  | bind (addr : Sockaddr6)
deriving DecidableEq

/-- The outcomes of the system calls of a server. -/
structure ServerEnv where
  resolve : CStr → Option (Vector Byte 16)
  socketStream : Bool
  binder : Sockaddr6 → Bool
  connect : Sockaddr6 → Bool
  /-- The sockets to the destinations and to the client. -/
  socketDgram : Bool
  socketDgram' : Bool
  reuse : Bool
  /-- `binder` of the server class, which also sets the address. -/
  udpBinder : Sockaddr6 → Bool × Sockaddr6
  /-- `addr` of `hev_socks5_server_handshake` before it is set. -/
  stack : Sockaddr6

/-- The outcome of `hev_socks5_server_read_request`. -/
inductive ServerRequest where
  /-- The result is `-1`. -/
  | closed
  /-- `*rep` is set. -/
  | refused (rep : Byte)
  /-- `*cmd` and `*addr` are set. -/
  | decoded (cmd : Byte) (req : Addr) (saddr : Sockaddr6)

/-- The end of a handshake: the result, the type of the server, and the request it has decoded. -/
structure ServerDone where
  res : Int
  type : SocksType
  request : Option (Byte × Addr)

namespace Server

/-- A program of the server. -/
abbrev ServerProg (ρ : Type) := Prog Byte ServerAct ρ

/-- The method a server asks for. -/
def wantedMethod (auth : Option Authenticator) : Byte := if auth.isSome then 2 else 0

/-- `hev_socks5_server_read_auth_method`. -/
def readAuthMethod (auth : Option Authenticator) : ServerProg Int := do
  let some [ver, methodLen] ← recvAll 2 | return -1
  if ver ≠ 5 then return -1
  let some methods ← recvAll methodLen.toNat | return -1
  if wantedMethod auth ∈ methods then return (wantedMethod auth).toNat
  return -1

/-- `hev_socks5_server_write_auth_method`. -/
def writeAuthMethod (method : Int) : ServerProg Int := do
  let ok ← sendAll [5, byteOfInt method]
  if !ok then return -1
  return 0

/-- `hev_socks5_server_read_auth_user`. -/
def readAuthUser (auth : Authenticator) : ServerProg Int := do
  let some [ver, nlen] ← recvAll 2 | return -1
  if ver ≠ 1 then return -1
  if nlen = 0 then return -1
  let some name ← recvAll (nlen.toNat + 1) | return -1
  let plen := name.getD nlen.toNat 0
  if plen = 0 then return -1
  let some pass ← recvAll plen.toNat | return -1
  let some user := auth.get (name.take nlen.toNat) | return -1
  if user.check pass < 0 then return -1
  return 0

/-- `hev_socks5_server_write_auth_user`. -/
def writeAuthUser (res : Int) : ServerProg Int := do
  let ok ← sendAll [1, byteOfInt res]
  if !ok then return -1
  return 0

/-- The bitwise or of two `int`s. -/
def intOr (a b : Int) : Int := (BitVec.ofInt 32 a ||| BitVec.ofInt 32 b).toInt

/-- The second half of `hev_socks5_server_auth`, for the method that was chosen. -/
def authUser (auth : Option Authenticator) (method : Int) : ServerProg Int := do
  if method = 0 then return 0
  else if method = 2 then
    -- the method is chosen only if there is an authenticator
    let some auth := auth | return -1
    let res ← readAuthUser auth
    let res' ← writeAuthUser res
    if intOr res res' < 0 then return -1
    return 0
  else return -1

/-- `hev_socks5_server_auth`. -/
def auth (auth : Option Authenticator) : ServerProg Int := do
  let method ← readAuthMethod auth
  let res ← writeAuthMethod method
  if res < 0 then return -1
  authUser auth method

/-- The length of the rest of a request, from the type and the byte behind it. -/
def requestLen (atype len : Byte) : Option ℕ :=
  if atype = 1 then some 5
  else if atype = 4 then some 17
  else if atype = 3 then some (2 + len.toNat)
  else none

/-- `hev_socks5_server_read_request`. -/
def readRequest (env : ServerEnv) : ServerProg ServerRequest := do
  perform .readRequest
  let some [ver, cmd, _, atype, len] ← recvAll 5 | return .closed
  if ver ≠ 5 then return .refused 1
  let some addrlen := requestLen atype len | return .refused 8
  let some data ← recvAll addrlen | return .refused 8
  let some req := Addr.ofBytes atype (len :: data) | return .refused 8
  let some saddr := addrIntoSockaddr6 env.resolve req | return .refused 8
  return .decoded cmd req saddr

/-- `hev_socks5_server_write_response`. -/
def writeResponse (rep : Byte) (saddr : Sockaddr6) : ServerProg Int := do
  let ok ← sendAll ([5, rep, 0] ++ (addrFromSockaddr6 saddr).bytes)
  if !ok then return -1
  return 0

/-- `hev_socks5_server_connect`. -/
def connect (env : ServerEnv) (saddr : Sockaddr6) : ServerProg Int := do
  if !env.socketStream then return -1
  perform .socketStream
  if !env.binder saddr then return -1
  perform (.connect saddr)
  if !env.connect saddr then return -1
  return 0

/-- `hev_socks5_server_bind`, with the address it leaves. -/
def bind (env : ServerEnv) (saddr : Option Sockaddr6) : ServerProg (Int × Option Sockaddr6) := do
  if !env.socketDgram then return (-1, saddr)
  perform .socketDgram
  let some addr := saddr | return (0, saddr)
  if !env.socketDgram' then return (-1, saddr)
  perform .socketDgram
  if !env.reuse then return (-1, saddr)
  perform (.bind addr)
  let (ok, addr) := env.udpBinder addr
  if !ok then return (-1, some addr)
  return (0, some addr)

/-- The `switch` on the command, an `int`: the reply, the type and the address to answer with. -/
def serve (env : ServerEnv) (cmd : BitVec 32) (saddr : Sockaddr6) :
    ServerProg (Byte × SocksType × Sockaddr6) := do
  if cmd = 1 then
    let res ← connect env saddr
    return (if res < 0 then 4 else 0, .tcp, saddr)
  else if cmd = 3 then
    let (res, addr) ← bind env (some saddr)
    return (if res < 0 then 1 else 0, .udpInUdp, addr.getD saddr)
  else if cmd = 5 then
    let (res, _) ← bind env none
    return (if res < 0 then 1 else 0, .udpInTcp, saddr)
  else return (7, .none, saddr)

/-- `hev_socks5_server_handshake` from the request on. -/
def answer (env : ServerEnv) : ServerProg ServerDone := do
  match ← readRequest env with
  | .closed => return ⟨-1, .none, none⟩
  | .refused rep =>
      let _ ← writeResponse rep env.stack
      return ⟨-1, .none, none⟩
  | .decoded cmd req saddr =>
      let (rep, type, saddr) ← serve env (BitVec.ofNat 32 cmd.toNat) saddr
      let res ← writeResponse rep saddr
      if res < 0 ∨ rep ≠ 0 then return ⟨-1, type, some (cmd, req)⟩
      return ⟨0, type, some (cmd, req)⟩

/-- `hev_socks5_server_handshake`. -/
def handshake (auth : Option Authenticator) (env : ServerEnv) : ServerProg ServerDone := do
  let res ← Server.auth auth
  if res < 0 then return ⟨-1, .none, none⟩
  answer env

/-! ### What a client sends -/

/-- A list of methods that contains one. -/
def Offers (method : Byte) (i : List Byte) : Prop :=
  ∃ n methods, i = 5 :: n :: methods ∧ methods.length = n.toNat ∧ method ∈ methods

/-- A sub-negotiation with a name and a password for which `P` holds. -/
def Credentials (P : List Byte → List Byte → Prop) (i : List Byte) : Prop :=
  ∃ nlen name plen pass, i = 1 :: nlen :: (name ++ plen :: pass) ∧ nlen ≠ 0 ∧ plen ≠ 0 ∧
    name.length = nlen.toNat ∧ pass.length = plen.toNat ∧ P name pass

/-! ### What the functions read and write -/

/-- A client that offers one method. -/
theorem returns_readAuthMethod (auth : Option Authenticator) (method : Byte) :
    Returns (readAuthMethod auth) [5, 1, method] []
      (if method = wantedMethod auth then (method.toNat : Int) else -1) := by
  refine Returns.recv_bind [5, 1] (by rfl) ?_
  refine Returns.recv_bind [method] (by rfl) ?_
  by_cases h : method = wantedMethod auth
  · simp only [h, List.mem_singleton, if_true]
    exact returns_ret _
  · simp only [h, Ne.symm h, List.mem_singleton, if_false]
    exact returns_ret _

theorem returns_writeAuthMethod (method : Int) :
    Returns (writeAuthMethod method) [] [5, byteOfInt method] 0 :=
  Returns.send_last (returns_ret _)

theorem returns_writeAuthUser (res : Int) : Returns (writeAuthUser res) [] [1, byteOfInt res] 0 :=
  Returns.send_last (returns_ret _)

/-- The credentials of a client are read, and accepted if they are those of a user. -/
theorem returns_readAuthUser {auth : Authenticator} (hauth : auth.WF) (user pass : Client.Cred) :
    Returns (readAuthUser auth) (Client.credsBytes user.str pass.str) []
      (if ⟨user.str.bytes, pass.str.bytes⟩ ∈ auth.users then 0 else -1) := by
  rw [Client.credsBytes_cred]
  refine Returns.recv_bind _ (by rfl) ?_
  simp only [ne_eq, not_true_eq_false, if_false, user.length_ne_zero]
  refine Returns.recv_bind _ (by simp [user.toNat_length]) ?_
  have hplen : (user.str.bytes ++ [UInt8.ofNat pass.str.bytes.length]).getD user.str.bytes.length 0
      = UInt8.ofNat pass.str.bytes.length := by simp
  simp only [user.toNat_length, hplen, pass.length_ne_zero, if_false, List.take_left']
  refine Returns.recv_last pass.toNat_length.symm ?_
  cases hget : auth.get user.str.bytes with
  | none =>
      rw [if_neg (by simp [hauth.mem_users_iff, hget])]
      exact returns_ret _
  | some u =>
      by_cases hcheck : u.check pass.str.bytes = 0
      · rw [if_pos (hauth.mem_users_iff.mpr ⟨u, hget, hcheck⟩)]
        simp only [hcheck, Int.lt_irrefl, if_false]
        exact returns_ret _
      · rw [if_neg (by simp [hauth.mem_users_iff, hget, hcheck])]
        have hneg : u.check pass.str.bytes < 0 := by
          obtain h | h := u.check_cases pass.str.bytes
          · exact absurd h hcheck
          · rw [h]
            decide
        simp only [hneg, if_true]
        exact returns_ret _

/-- The byte that tells the client about its credentials. -/
def verdict (ok : Prop) [Decidable ok] : Byte := if ok then 0 else 0xff

theorem returns_authUser {auth : Authenticator} (hauth : auth.WF) (user pass : Client.Cred) :
    Returns (authUser (some auth) 2) (Client.credsBytes user.str pass.str)
      [1, verdict (⟨user.str.bytes, pass.str.bytes⟩ ∈ auth.users)]
      (if ⟨user.str.bytes, pass.str.bytes⟩ ∈ auth.users then 0 else -1) := by
  rw [← List.append_nil (Client.credsBytes _ _)]
  refine (returns_readAuthUser hauth user pass).bind ?_
  by_cases hmem : ⟨user.str.bytes, pass.str.bytes⟩ ∈ auth.users
  · simp only [verdict, if_pos hmem]
    exact (returns_writeAuthUser 0).bind_last (returns_ret _)
  · simp only [verdict, if_neg hmem]
    exact (returns_writeAuthUser (-1)).bind_last (returns_ret _)

end Server

/-- The system calls of a server and its name resolution succeed. -/
structure ServerEnv.Succeeds (env : ServerEnv) : Prop where
  resolve : ∀ name, (env.resolve name).isSome
  socketStream : env.socketStream = true
  binder : ∀ addr, env.binder addr = true
  connect : ∀ addr, env.connect addr = true
  socketDgram : env.socketDgram = true
  socketDgram' : env.socketDgram' = true
  reuse : env.reuse = true
  udpBinder : ∀ addr, (env.udpBinder addr).1 = true

namespace Server
variable {env : ServerEnv} (henv : env.Succeeds)
include henv

theorem addrIntoSockaddr6_isSome (addr : Addr) :
    ∃ saddr, addrIntoSockaddr6 env.resolve addr = some saddr := by
  cases addr with
  | ipv4 addr port => exact ⟨_, rfl⟩
  | ipv6 addr port => exact ⟨_, rfl⟩
  | name domain short port =>
      obtain ⟨ip, hip⟩ := Option.isSome_iff_exists.mp (henv.resolve (cstrOf domain))
      exact ⟨⟨ip, port⟩, by simp [addrIntoSockaddr6, hip]⟩

omit henv in
/-- The first byte behind the type announces the rest of an address. -/
theorem requestLen_data (addr : Addr) :
    ∃ len rest, addr.data = len :: rest ∧ requestLen addr.atype len = some rest.length := by
  obtain ⟨t, len, rest, hbytes, hlen⟩ := addrLen_bytes addr
  rw [addr.bytes_eq, List.cons.injEq] at hbytes
  obtain ⟨rfl, hdata⟩ := hbytes
  refine ⟨len, rest, hdata, ?_⟩
  have htotal := addr.length_bytes
  rw [addr.bytes_eq, hdata, List.length_cons, List.length_cons] at htotal
  cases addr with
  | ipv4 addr port => simp_all [requestLen, Addr.atype, Addr.len]
  | ipv6 addr port => simp_all [requestLen, Addr.atype, Addr.len]
  | name domain short port =>
      simp only [Addr.data, List.cons.injEq] at hdata
      obtain ⟨rfl, rfl⟩ := hdata
      have hmod : domain.length % 256 = domain.length := by omega
      simp [requestLen, Addr.atype, hmod, Nat.add_comm]

theorem returns_readRequest (cmd : Byte) (addr : Addr) : ∃ saddr,
    Returns (readRequest env) ([5, cmd, 0] ++ addr.bytes) [] (.decoded cmd addr saddr) := by
  obtain ⟨saddr, hsaddr⟩ := addrIntoSockaddr6_isSome henv addr
  obtain ⟨len, rest, hdata, hlen⟩ := requestLen_data addr
  have hof := addr.ofBytes_data
  rw [hdata] at hof
  refine ⟨saddr, ?_⟩
  rw [addr.bytes_eq, hdata]
  show Returns _ ([5, cmd, 0, addr.atype, len] ++ rest) [] _
  refine Returns.perform_bind (Returns.recv_bind _ (by rfl) ?_)
  simp only [hlen, ne_eq, not_true_eq_false, if_false]
  refine Returns.recv_last rfl ?_
  simp only [hof, hsaddr]
  exact returns_ret _

omit henv in
theorem returns_writeResponse (rep : Byte) (saddr : Sockaddr6) :
    Returns (writeResponse rep saddr) [] ([5, rep, 0] ++ (addrFromSockaddr6 saddr).bytes) 0 :=
  Returns.send_last (returns_ret _)

/-- The commands of the clients are carried out. -/
theorem returns_serve (kind : ClientKind) (saddr : Sockaddr6) : ∃ saddr',
    Returns (serve env (BitVec.ofNat 32 kind.cmd.toNat) saddr) [] [] (0, kind.type, saddr') := by
  cases kind with
  | tcp addr =>
      refine ⟨saddr, ?_⟩
      have h : Returns (connect env saddr) [] [] 0 := by
        simp only [connect, henv.socketStream, henv.binder, henv.connect, Bool.not_true,
          Bool.false_eq_true, if_false]
        exact Returns.perform_bind (Returns.perform_bind (returns_ret _))
      exact h.bind (returns_ret _)
  | udpInTcp family =>
      refine ⟨saddr, ?_⟩
      have h : Returns (bind env none) [] [] (0, none) := by
        simp only [bind, henv.socketDgram, Bool.not_true, Bool.false_eq_true, if_false]
        exact Returns.perform_bind (returns_ret _)
      exact h.bind (returns_ret _)
  | udpInUdp family =>
      refine ⟨(env.udpBinder saddr).2, ?_⟩
      have h : Returns (bind env (some saddr)) [] [] (0, some (env.udpBinder saddr).2) := by
        simp only [bind, henv.socketDgram, henv.socketDgram', henv.reuse, henv.udpBinder,
          Bool.not_true, Bool.false_eq_true, if_false]
        exact Returns.perform_bind (Returns.perform_bind (Returns.perform_bind (returns_ret _)))
      exact h.bind (returns_ret _)

omit henv in
theorem not_isName_addrFromSockaddr6 (saddr : Sockaddr6) : ¬ (addrFromSockaddr6 saddr).IsName := by
  unfold addrFromSockaddr6
  split_ifs <;> exact id

/-- The request of a client is decoded as it was sent, and granted. -/
theorem returns_answer (kind : ClientKind) : ∃ addr : Addr, ¬ addr.IsName ∧
    Returns (answer env) ([5, kind.cmd, 0] ++ kind.upstreamAddr.bytes) ([5, 0, 0] ++ addr.bytes)
      ⟨0, kind.type, some (kind.cmd, kind.upstreamAddr)⟩ := by
  obtain ⟨saddr, hread⟩ := returns_readRequest henv kind.cmd kind.upstreamAddr
  obtain ⟨saddr', hserve⟩ := returns_serve henv kind saddr
  refine ⟨addrFromSockaddr6 saddr', not_isName_addrFromSockaddr6 saddr', ?_⟩
  rw [← List.append_nil ([5, kind.cmd, 0] ++ _)]
  refine hread.bind (hserve.bind ?_)
  exact (returns_writeResponse 0 saddr').bind_last (returns_ret _)

end Server

end HevTunnel
