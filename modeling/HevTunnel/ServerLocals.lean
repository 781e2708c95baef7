import HevTunnel.Server
import HevTunnel.ProcessStream

/-! # The local variables of the server's handshake

`hev_socks5_server_handshake` keeps the address and the command of a request in local variables that
it does not initialise.  `hev_socks5_server_read_request` sets them, and
`hev_socks5_server_write_response` sends the address back.

Here the functions pass these variables along, so that a run depends on what they hold at first.
`handshakeLocals_written` says that such a run is one of `Server.handshake`, where the contents of
the stack are free.  `noLeak_iff` says for which streams of a client the replies do not depend on
them: a request that is refused before its address is decoded, or because its name has no address,
is answered with what was on the stack. -/

namespace HevTunnel

open Prog

/-! ### Setting a socket address -/

/-- `struct sockaddr_in6`. -/
structure SockaddrIn6 extends Sockaddr6 where
  family : UInt16
  flowinfo : UInt32
  scopeId : UInt32

/-- The first address of `getaddrinfo`. -/
inductive AddrInfo where
  | inet (addr : Vector Byte 4)
  | inet6 (addr : Vector Byte 16)
  | other

/-- The outcomes of the name resolution: `inet_pton` for both families, and `getaddrinfo`. -/
structure Names where
  pton : CStr → Option (Vector Byte 4)
  pton6 : CStr → Option (Vector Byte 16)
  getaddrinfo : CStr → Option AddrInfo

/-- The address of a name. -/
def Names.resolve (names : Names) (name : CStr) : Option (Vector Byte 16) :=
  ((names.pton name).map v4Mapped).or ((names.pton6 name).or
    (match names.getaddrinfo name with
      | some (.inet addr) => some (v4Mapped addr)
      | some (.inet6 addr) => some addr
      | _ => none))

namespace SockaddrIn6
variable (names : Names) (name : CStr) (saddr : SockaddrIn6)

/-- An address whose first ten bytes are set to zero. -/
def clear (addr : Vector Byte 16) : Vector Byte 16 :=
  .ofFn (fun i => if i.val < 10 then 0 else addr.get i)

theorem back_clear (addr : Vector Byte 16) : (clear addr).back = addr.back := by
  simp only [clear, Vector.back, Vector.getElem_ofFn]
  rfl

/-- `hev_socks5_name_resolve_ipv4`.  `inet_pton` leaves the address alone if it fails. -/
def nameResolveIpv4 : Int × SockaddrIn6 :=
  let saddr := { saddr with addr := clear saddr.addr }
  match names.pton name with
  | none => (-1, saddr)
  | some addr => (0, { saddr with addr := v4Mapped addr })

/-- `hev_socks5_name_resolve_ipv6`. -/
def nameResolveIpv6 : Int × SockaddrIn6 :=
  match names.pton6 name with
  | none => (-1, saddr)
  | some addr => (0, { saddr with addr })

/-- `hev_socks5_name_resolve_name`. -/
def nameResolveName : Int × SockaddrIn6 :=
  match names.getaddrinfo name with
  | some (.inet addr) => (0, { saddr with addr := v4Mapped addr })
  | some (.inet6 addr) => (0, { saddr with addr })
  | _ => (-1, saddr)

/-- `hev_socks5_name_into_sockaddr6`; `10` is `AF_INET6`. -/
def nameInto (port : UInt16) : Int × SockaddrIn6 :=
  let saddr := { saddr with family := 10, port }
  let (res, saddr) := nameResolveIpv4 names name saddr
  if res = 0 then (0, saddr)
  else
    let (res, saddr) := nameResolveIpv6 names name saddr
    if res = 0 then (0, saddr)
    else nameResolveName names name saddr

/-- `hev_socks5_addr_into_sockaddr6`. -/
def addrInto : Addr → Int × SockaddrIn6
  | .ipv4 addr port => (0, { saddr with family := 10, port, addr := v4Mapped addr })
  | .ipv6 addr port => (0, { saddr with family := 10, port, addr })
  | .name domain _ port => nameInto names (cstrOf domain) saddr port

/-- A name that has an address sets the address and the port. -/
theorem nameInto_some {port : UInt16} {addr : Vector Byte 16} (h : names.resolve name = some addr) :
    (nameInto names name saddr port).1 = 0 ∧
      (nameInto names name saddr port).2.toSockaddr6 = ⟨addr, port⟩ := by
  unfold nameInto nameResolveIpv4 nameResolveIpv6 nameResolveName
  unfold Names.resolve at h
  cases hp : names.pton name with
  | some a =>
      rw [hp] at h
      obtain rfl := Option.some.inj h
      exact ⟨rfl, rfl⟩
  | none =>
      rw [hp, Option.map_none, Option.none_or] at h
      cases hp6 : names.pton6 name with
      | some a =>
          rw [hp6] at h
          obtain rfl := Option.some.inj h
          exact ⟨rfl, rfl⟩
      | none =>
          rw [hp6, Option.none_or] at h
          rcases hg : names.getaddrinfo name with _ | _ | _ | _ <;> simp_all

/-- A name without an address sets the port, and leaves the end of the address as it is. -/
theorem nameInto_none (port : UInt16) (h : names.resolve name = none) :
    (nameInto names name saddr port).1 = -1 ∧
      (nameInto names name saddr port).2.toSockaddr6 = ⟨clear saddr.addr, port⟩ := by
  unfold Names.resolve at h
  rw [Option.or_eq_none_iff, Option.or_eq_none_iff, Option.map_eq_none_iff] at h
  obtain ⟨hp, hp6, hg⟩ := h
  unfold nameInto nameResolveIpv4 nameResolveIpv6 nameResolveName
  simp only [hp, hp6]
  rcases hga : names.getaddrinfo name with _ | _ | _ | _ <;> simp_all

theorem addrInto_some {addr : Addr} {a : Sockaddr6}
    (h : addrIntoSockaddr6 names.resolve addr = some a) :
    (addrInto names saddr addr).1 = 0 ∧ (addrInto names saddr addr).2.toSockaddr6 = a := by
  cases addr with
  | ipv4 addr port => exact ⟨rfl, Option.some.inj h⟩
  | ipv6 addr port => exact ⟨rfl, Option.some.inj h⟩
  | name domain short port =>
      obtain ⟨ip, hip, rfl⟩ := Option.map_eq_some_iff.mp h
      exact nameInto_some names _ saddr hip

/-- A failure leaves the last byte of the address as it is. -/
theorem addrInto_none {addr : Addr} (h : addrIntoSockaddr6 names.resolve addr = none) :
    (addrInto names saddr addr).1 = -1 ∧ (addrInto names saddr addr).2.addr.back = saddr.addr.back := by
  cases addr with
  | ipv4 addr port => cases h
  | ipv6 addr port => cases h
  | name domain short port =>
      obtain ⟨hres, haddr⟩ := nameInto_none names (cstrOf domain) saddr port
        (Option.map_eq_none_iff.mp h)
      exact ⟨hres, (congrArg (fun a => a.addr.back) haddr).trans (back_clear saddr.addr)⟩

end SockaddrIn6

/-! ### The handshake -/

/-- The local variables of `hev_socks5_server_handshake` that it does not initialise. -/
structure Locals where
  addr : SockaddrIn6
  cmd : BitVec 32

namespace Server
variable (auth : Option Authenticator) (env : ServerEnv) (names : Names)

/-- `hev_socks5_server_read_request`: the result, `rep` and the variables. -/
def readRequestLocals (l : Locals) : ServerProg (Int × Byte × Locals) := do
  perform .readRequest
  let some [ver, cmd, _, atype, len] ← recvAll 5 | return (-1, 0, l)
  if ver ≠ 5 then return (0, 1, l)
  let some addrlen := requestLen atype len | return (0, 8, l)
  let some data ← recvAll addrlen | return (0, 8, l)
  let some req := Addr.ofBytes atype (len :: data) | return (0, 8, l)
  let (res, addr) := SockaddrIn6.addrInto names l.addr req
  if res < 0 then return (0, 8, { l with addr })
  return (0, 0, ⟨addr, BitVec.ofNat 32 cmd.toNat⟩)

/-- `hev_socks5_server_handshake` from the request on. -/
def answerLocals (l : Locals) : ServerProg (Int × SocksType) := do
  let (res, rep, l) ← readRequestLocals names l
  if res < 0 then return (-1, .none)
  let (rep, type, saddr) ←
    if rep = 0 then serve env l.cmd l.addr.toSockaddr6
    else pure (rep, .none, l.addr.toSockaddr6)
  let res ← writeResponse rep saddr
  if res < 0 ∨ rep ≠ 0 then return (-1, type)
  return (0, type)

/-- `hev_socks5_server_handshake`. -/
def handshakeLocals (l : Locals) : ServerProg (Int × SocksType) := do
  let res ← Server.auth auth
  if res < 0 then return (-1, .none)
  answerLocals env names l

/-! ### The authentication -/

/-- The password is that of a user. -/
def Admits (auth : Authenticator) (name pass : List Byte) : Prop :=
  ∃ user, auth.get name = some user ∧ user.check pass = 0

/-- What a client sends to be let in. -/
def Passes : Option Authenticator → List Byte → Prop
  | none, i => Offers 0 i
  | some auth, i => ∃ i₁ i₂, i = i₁ ++ i₂ ∧ Offers 2 i₁ ∧ Credentials (Admits auth) i₂

variable {auth}

theorem runBytes_readAuthMethod {i : List Byte} (h : Offers (wantedMethod auth) i)
    (rest : List Byte) :
    (readAuthMethod auth).runBytes (i ++ rest) = ⟨(wantedMethod auth).toNat, rest, []⟩ := by
  obtain ⟨n, methods, rfl, hlen, hmem⟩ := h
  unfold readAuthMethod
  rw [show (5 :: n :: methods) ++ rest = [5, n] ++ (methods ++ rest) from rfl,
    runBytes_recv_bind (show [5, n].length = 2 from rfl)]
  simp only [ne_eq, not_true_eq_false, if_false]
  rw [runBytes_recv_bind hlen]
  simp only [hmem, if_true]
  rfl

theorem offers_of_readAuthMethod {s : List Byte}
    (h : ((readAuthMethod auth).runBytes s).result ≠ -1) :
    ∃ i rest, s = i ++ rest ∧ Offers (wantedMethod auth) i := by
  unfold readAuthMethod at h
  obtain ⟨inp, s₁, hlen, rfl, h₁⟩ := recv_of_result_ne h rfl
  obtain ⟨ver, n, rfl⟩ := List.length_eq_two.mp hlen
  by_cases hver : ver = 5
  · simp only [hver, ne_eq, not_true_eq_false, if_false] at h₁
    obtain ⟨methods, rest, hmethods, rfl, h₂⟩ := recv_of_result_ne h₁ rfl
    by_cases hmem : wantedMethod auth ∈ methods
    · exact ⟨5 :: n :: methods, rest, by rw [hver]; rfl, n, methods, rfl, hmethods, hmem⟩
    · simp only [hmem, if_false] at h₂
      exact absurd rfl h₂
  · simp only [hver, ne_eq, not_false_eq_true, if_true] at h₁
    exact absurd rfl h₁

theorem runBytes_readAuthUser {auth : Authenticator} {i : List Byte} (h : Credentials (Admits auth) i)
    (rest : List Byte) : (readAuthUser auth).runBytes (i ++ rest) = ⟨0, rest, []⟩ := by
  obtain ⟨nlen, name, plen, pass, rfl, hnlen, hplen, hname, hpass, user, hget, hcheck⟩ := h
  unfold readAuthUser
  rw [show (1 :: nlen :: (name ++ plen :: pass)) ++ rest =
    [1, nlen] ++ ((name ++ [plen]) ++ (pass ++ rest)) by simp,
    runBytes_recv_bind (show [1, nlen].length = 2 from rfl)]
  simp only [ne_eq, not_true_eq_false, if_false, hnlen]
  rw [runBytes_recv_bind (by simp [hname])]
  have hplen' : (name ++ [plen]).getD name.length 0 = plen := by simp
  simp only [← hname, hplen', hplen, if_false, List.take_left']
  rw [runBytes_recv_bind hpass]
  simp only [hget, hcheck, Int.lt_irrefl, if_false]
  rfl

theorem credentials_of_readAuthUser {auth : Authenticator} {s : List Byte}
    (h : ((readAuthUser auth).runBytes s).result ≠ -1) :
    ∃ i rest, s = i ++ rest ∧ Credentials (Admits auth) i := by
  unfold readAuthUser at h
  obtain ⟨inp, s₁, hlen, rfl, h₁⟩ := recv_of_result_ne h rfl
  obtain ⟨ver, nlen, rfl⟩ := List.length_eq_two.mp hlen
  by_cases hver : ver = 1
  case neg =>
    simp only [hver, ne_eq, not_false_eq_true, if_true] at h₁
    exact absurd rfl h₁
  by_cases hnlen : nlen = 0
  case pos =>
    simp only [hver, hnlen, ne_eq, not_true_eq_false, if_false, if_true] at h₁
    exact absurd rfl h₁
  simp only [hver, hnlen, ne_eq, not_true_eq_false, if_false] at h₁
  obtain ⟨buf, s₂, hbuf, rfl, h₂⟩ := recv_of_result_ne h₁ rfl
  -- the name, and the length of the password behind it
  obtain ⟨name, plen, rfl⟩ : ∃ name plen, buf = name ++ [plen] :=
    ⟨_, _, (List.dropLast_append_getLast (List.ne_nil_of_length_pos (by omega))).symm⟩
  have hname : name.length = nlen.toNat := by simpa using hbuf
  have hplen' : (name ++ [plen]).getD name.length 0 = plen := by simp
  simp only [← hname, hplen', List.take_left'] at h₂
  by_cases hplen : plen = 0
  case pos =>
    simp only [hplen, if_true] at h₂
    exact absurd rfl h₂
  simp only [hplen, if_false] at h₂
  obtain ⟨pass, rest, hpass, rfl, h₃⟩ := recv_of_result_ne h₂ rfl
  cases huser : auth.get name with
  | none =>
      simp only [huser] at h₃
      exact absurd rfl h₃
  | some user =>
      simp only [huser] at h₃
      obtain hcheck | hcheck := user.check_cases pass
      · refine ⟨1 :: nlen :: (name ++ plen :: pass), rest, by simp [hver], nlen, name, plen, pass,
          rfl, hnlen, hplen, hname, hpass, user, huser, hcheck⟩
      · simp only [hcheck, show (-1 : Int) < 0 by decide, if_true] at h₃
        exact absurd rfl h₃

/-- A client that sends what is asked for is let in, and no more of its stream is read. -/
theorem runBytes_auth {i : List Byte} (h : Passes auth i) (rest : List Byte) :
    ((Server.auth auth).runBytes (i ++ rest)).result = 0 ∧
      ((Server.auth auth).runBytes (i ++ rest)).left = rest := by
  unfold Server.auth
  cases auth with
  | none =>
      have hmethod := runBytes_readAuthMethod (show Offers (wantedMethod none) i from h) rest
      rw [runBytes_bind, hmethod]
      exact ⟨rfl, rfl⟩
  | some auth =>
      obtain ⟨i₁, i₂, rfl, h₁, h₂⟩ := h
      have hmethod := runBytes_readAuthMethod (show Offers (wantedMethod (some auth)) i₁ from h₁)
        (i₂ ++ rest)
      rw [List.append_assoc, runBytes_bind, hmethod]
      show (runBytes (readAuthUser auth >>= _) (i₂ ++ rest)).result = 0 ∧
        (runBytes (readAuthUser auth >>= _) (i₂ ++ rest)).left = rest
      have hwrite : (writeAuthUser 0).runBytes rest = ⟨0, rest, [1, byteOfInt 0]⟩ := rfl
      have hor : ¬ intOr 0 0 < 0 := by decide
      simp only [runBytes_bind, runBytes_readAuthUser h₂, hwrite, hor, if_false]
      exact ⟨rfl, rfl⟩

/-- No other client is let in. -/
theorem passes_of_auth {s : List Byte} (h : ¬ ((Server.auth auth).runBytes s).result < 0) :
    ∃ i rest, s = i ++ rest ∧ Passes auth i := by
  unfold Server.auth at h
  rw [runBytes_bind] at h
  by_cases hm : ((readAuthMethod auth).runBytes s).result = -1
  · rw [hm] at h
    exact absurd (show (-1 : Int) < 0 by decide) h
  obtain ⟨i, rest, rfl, hi⟩ := offers_of_readAuthMethod hm
  rw [runBytes_readAuthMethod hi] at h
  cases auth with
  | none => exact ⟨i, rest, rfl, hi⟩
  | some auth =>
      have huser : ((readAuthUser auth).runBytes rest).result ≠ -1 := by
        intro hres
        refine h ?_
        show (runBytes (readAuthUser auth >>= _) _).result < 0
        rw [runBytes_bind, hres]
        exact show (-1 : Int) < 0 by decide
      obtain ⟨i₂, rest', rfl, hi₂⟩ := credentials_of_readAuthUser huser
      exact ⟨i ++ i₂, rest', (List.append_assoc _ _ _).symm, i, i₂, rfl, hi, hi₂⟩

/-! ### The request -/

/-- A request that is answered without the contents of the stack, or not at all: it breaks off in its
first bytes, or it is complete and its address has a socket address. -/
def Decodable (s : List Byte) : Prop :=
  s.length < 5 ∨ ∃ cmd rsv addr rest, s = [5, cmd, rsv] ++ Addr.bytes addr ++ rest ∧
    (addrIntoSockaddr6 names.resolve addr).isSome

theorem runBytes_readRequest_short (l : Locals) {s : List Byte} (h : s.length < 5) :
    (readRequestLocals names l).runBytes s = ⟨(-1, 0, l), [], []⟩ ∧
      (readRequest env).runBytes s = ⟨.closed, [], []⟩ := by
  constructor
  · show runBytes (recvAll 5 >>= _) s = _
    rw [runBytes_recv_short h]
    rfl
  · show runBytes (recvAll 5 >>= _) s = _
    rw [runBytes_recv_short h]
    rfl

/-- The rest of a request is the rest of an address. -/
theorem requestLen_eq_some {atype len : Byte} {n : ℕ} (h : requestLen atype len = some n) :
    addrLen atype len = (n + 2 : ℕ) := by
  unfold requestLen at h
  unfold addrLen
  split_ifs at h ⊢ <;> simp only [Option.some.injEq] at h <;> omega

/-- A request with an address. -/
theorem runBytes_readRequest_addr (cmd rsv : Byte) (addr : Addr) (rest : List Byte) :
    (∀ l, (readRequestLocals names l).runBytes ([5, cmd, rsv] ++ addr.bytes ++ rest) =
      ⟨if (SockaddrIn6.addrInto names l.addr addr).1 < 0 then
          (0, 8, { l with addr := (SockaddrIn6.addrInto names l.addr addr).2 })
        else (0, 0, ⟨(SockaddrIn6.addrInto names l.addr addr).2, BitVec.ofNat 32 cmd.toNat⟩),
        rest, []⟩) ∧
    (readRequest env).runBytes ([5, cmd, rsv] ++ addr.bytes ++ rest) =
      ⟨match addrIntoSockaddr6 env.resolve addr with
        | some saddr => .decoded cmd addr saddr
        | none => .refused 8, rest, []⟩ := by
  obtain ⟨len, data, hdata, hlen⟩ := requestLen_data addr
  have hof := addr.ofBytes_data
  rw [hdata] at hof
  have hs : [5, cmd, rsv] ++ addr.bytes ++ rest = [5, cmd, rsv, addr.atype, len] ++ (data ++ rest) := by
    rw [addr.bytes_eq, hdata]
    rfl
  have h5 : [5, cmd, rsv, addr.atype, len].length = 5 := rfl
  constructor
  · intro l
    show runBytes (recvAll 5 >>= _) _ = _
    rw [hs, runBytes_recv_bind h5]
    simp only [ne_eq, not_true_eq_false, if_false, hlen]
    rw [runBytes_recv_bind rfl]
    simp only [hof]
    split_ifs <;> rfl
  · show runBytes (recvAll 5 >>= _) _ = _
    rw [hs, runBytes_recv_bind h5]
    simp only [ne_eq, not_true_eq_false, if_false, hlen]
    rw [runBytes_recv_bind rfl]
    simp only [hof]
    cases addrIntoSockaddr6 env.resolve addr <;> rfl

variable {names}

/-- A request that is not decodable is refused, and the last byte of the address is what it was. -/
theorem runBytes_readRequest_refused (henv : env.resolve = names.resolve) {s : List Byte}
    (h : ¬ Decodable names s) :
    ∃ rep left, rep ≠ 0 ∧ (readRequest env).runBytes s = ⟨.refused rep, left, []⟩ ∧
      ∀ l, ∃ l', (readRequestLocals names l).runBytes s = ⟨(0, rep, l'), left, []⟩ ∧
        l'.addr.addr.back = l.addr.addr.back := by
  unfold Decodable at h
  push Not at h
  obtain ⟨hlen, hnone⟩ := h
  obtain hlt | ⟨inp, s₁, hinp, rfl⟩ := short_or_append 5 s
  · omega
  obtain ⟨ver, cmd, rsv, atype, len, rfl⟩ : ∃ a b c d e, inp = [a, b, c, d, e] := by
    rcases inp with _ | ⟨a, _ | ⟨b, _ | ⟨c, _ | ⟨d, _ | ⟨e, _ | _⟩⟩⟩⟩⟩ <;> simp_all
  have hrun : ∀ l, (readRequestLocals names l).runBytes ([ver, cmd, rsv, atype, len] ++ s₁) = _ :=
    fun l => runBytes_recv_bind hinp s₁
  have hrun' : (readRequest env).runBytes ([ver, cmd, rsv, atype, len] ++ s₁) = _ :=
    runBytes_recv_bind hinp s₁
  by_cases hver : ver = 5
  case neg =>
    simp only [hver, ne_eq, not_false_eq_true, if_true] at hrun hrun'
    exact ⟨1, s₁, by decide, hrun', fun l => ⟨l, hrun l, rfl⟩⟩
  subst hver
  simp only [ne_eq, not_true_eq_false, if_false] at hrun hrun'
  cases hreq : requestLen atype len with
  | none =>
      simp only [hreq] at hrun hrun'
      exact ⟨8, s₁, by decide, hrun', fun l => ⟨l, hrun l, rfl⟩⟩
  | some n =>
      simp only [hreq] at hrun hrun'
      obtain hlt | ⟨data, rest, hdata, rfl⟩ := short_or_append n s₁
      · simp only [runBytes_recv_short hlt] at hrun hrun'
        exact ⟨8, [], by decide, hrun', fun l => ⟨l, hrun l, rfl⟩⟩
      · -- the address is there, so its name has no socket address
        obtain ⟨addr, -, hbytes⟩ := Addr.ofBytes_of_addrLen (hdata ▸ requestLen_eq_some hreq)
        have hs : [5, cmd, rsv, atype, len] ++ (data ++ rest) = [5, cmd, rsv] ++ addr.bytes ++ rest := by
          rw [hbytes]
          rfl
        have hfail : addrIntoSockaddr6 names.resolve addr = none := by
          by_contra hne
          exact hnone cmd rsv addr rest hs (Option.isSome_iff_ne_none.mpr hne)
        obtain ⟨hlocals, hread⟩ := runBytes_readRequest_addr env names cmd rsv addr rest
        rw [henv, hfail] at hread
        refine ⟨8, rest, by decide, by rw [hs, hread], fun l => ?_⟩
        obtain ⟨hres, hlast⟩ := SockaddrIn6.addrInto_none names l.addr hfail
        refine ⟨{ l with addr := (SockaddrIn6.addrInto names l.addr addr).2 }, ?_, hlast⟩
        rw [hs, hlocals, if_pos (by rw [hres]; decide)]

/-! ### The replies -/

/-- The last byte of an address stands before the port, in both encodings. -/
theorem exists_bytes_addrFromSockaddr6 (saddr : Sockaddr6) : ∃ front,
    (addrFromSockaddr6 saddr).bytes = front ++ saddr.addr.back :: portBytes saddr.port := by
  unfold addrFromSockaddr6
  split_ifs
  · exact ⟨[1, saddr.addr.get 12, saddr.addr.get 13, saddr.addr.get 14], rfl⟩
  · have hlen : saddr.addr.toList.length = 16 := saddr.addr.length_toList
    have hlast : saddr.addr.toList = saddr.addr.toList.take 15 ++ [saddr.addr.back] := by
      conv_lhs => rw [← List.take_append_drop 15 saddr.addr.toList]
      rw [List.drop_eq_getElem_cons (by omega), List.drop_of_length_le (by omega)]
      rfl
    refine ⟨4 :: saddr.addr.toList.take 15, ?_⟩
    rw [Addr.bytes, hlast]
    simp

theorem last_eq_of_bytes_eq {a b : Sockaddr6}
    (h : (addrFromSockaddr6 a).bytes = (addrFromSockaddr6 b).bytes) : a.addr.back = b.addr.back := by
  obtain ⟨front, ha⟩ := exists_bytes_addrFromSockaddr6 a
  obtain ⟨front', hb⟩ := exists_bytes_addrFromSockaddr6 b
  rw [ha, hb] at h
  have hcons := (List.append_inj' h (by simp)).2
  exact (List.cons.inj hcons).1

/-- A reply, when nothing is written behind it. -/
theorem written_writeResponse {ρ : Type} (rep : Byte) (saddr : Sockaddr6) {f : Int → ServerProg ρ}
    (hf : ∀ res, (f res).Silent) (s : List Byte) :
    ((writeResponse rep saddr >>= f).runBytes s).written =
      [5, rep, 0] ++ (addrFromSockaddr6 saddr).bytes := by
  have hwrite : ((writeResponse rep saddr).runBytes s).written =
      [5, rep, 0] ++ (addrFromSockaddr6 saddr).bytes := List.append_nil _
  rw [runBytes_bind, hwrite, (hf _).written, List.append_nil]

theorem silent_ite {ρ : Type} (c : Prop) [Decidable c] (x y : ρ) :
    (if c then pure x else pure y : ServerProg ρ).Silent := by
  split_ifs <;> trivial

/-- The answer to a request that is refused. -/
theorem written_refused (henv : env.resolve = names.resolve) {s : List Byte}
    (h : ¬ Decodable names s) : ∃ rep,
    ((answer env).runBytes s).written = [5, rep, 0] ++ (addrFromSockaddr6 env.stack).bytes ∧
    ∀ l, ∃ saddr, saddr.addr.back = l.addr.addr.back ∧
      ((answerLocals env names l).runBytes s).written = [5, rep, 0] ++ (addrFromSockaddr6 saddr).bytes := by
  obtain ⟨rep, left, hrep, hread, hlocals⟩ := runBytes_readRequest_refused env henv h
  refine ⟨rep, ?_, fun l => ?_⟩
  · unfold answer
    rw [runBytes_bind, hread]
    exact written_writeResponse rep env.stack (fun _ => show Silent (.ret _) from trivial) left
  · obtain ⟨l', hl', hlast⟩ := hlocals l
    refine ⟨l'.addr.toSockaddr6, hlast, ?_⟩
    unfold answerLocals
    rw [runBytes_bind, hl']
    simp only [Int.lt_irrefl, if_false, hrep]
    exact written_writeResponse rep l'.addr.toSockaddr6 (fun _ => silent_ite _ _ _) left

/-- The answer to a request that is decodable is the same for all contents of the stack. -/
theorem written_decodable (henv : env.resolve = names.resolve) {s : List Byte}
    (h : Decodable names s) (l : Locals) :
    ((answerLocals env names l).runBytes s).written = ((answer env).runBytes s).written := by
  unfold answerLocals answer
  obtain hlt | ⟨cmd, rsv, addr, rest, rfl, hsome⟩ := h
  · obtain ⟨h₁, h₂⟩ := runBytes_readRequest_short env names l hlt
    rw [runBytes_bind, runBytes_bind, h₁, h₂]
    rfl
  · obtain ⟨saddr, hsaddr⟩ := Option.isSome_iff_exists.mp hsome
    obtain ⟨hlocals, hread⟩ := runBytes_readRequest_addr env names cmd rsv addr rest
    obtain ⟨hres, hinto⟩ := SockaddrIn6.addrInto_some names l.addr hsaddr
    rw [runBytes_bind, runBytes_bind, hlocals, hread, henv, hsaddr, hres]
    simp only [Int.lt_irrefl, if_false, if_true, hinto]
    rw [runBytes_bind (serve env _ saddr), runBytes_bind (serve env _ saddr)]
    dsimp only
    rw [written_writeResponse _ _ (fun _ => silent_ite _ _ _),
      written_writeResponse _ _ (fun _ => silent_ite _ _ _)]

/-- A client that is let in gets the answer to its request. -/
theorem written_handshakeLocals {i : List Byte} (h : Passes auth i) (rest : List Byte) (l : Locals) :
    ((handshakeLocals auth env names l).runBytes (i ++ rest)).written =
      ((Server.auth auth).runBytes (i ++ rest)).written ++
        ((answerLocals env names l).runBytes rest).written := by
  obtain ⟨hres, hleft⟩ := runBytes_auth h rest
  unfold handshakeLocals
  simp only [runBytes_bind, hres, hleft, Int.lt_irrefl, if_false]

theorem written_handshake {i : List Byte} (h : Passes auth i) (rest : List Byte) :
    ((handshake auth env).runBytes (i ++ rest)).written =
      ((Server.auth auth).runBytes (i ++ rest)).written ++ ((answer env).runBytes rest).written := by
  obtain ⟨hres, hleft⟩ := runBytes_auth h rest
  unfold handshake
  simp only [runBytes_bind, hres, hleft, Int.lt_irrefl, if_false]

/-- The replies are those of `handshake` with some contents of the stack. -/
theorem handshakeLocals_written (l : Locals) (s : List Byte) : ∃ stack,
    ((handshakeLocals auth env names l).runBytes s).written =
      ((handshake auth { env with resolve := names.resolve, stack }).runBytes s).written := by
  by_cases hneg : ((Server.auth auth).runBytes s).result < 0
  · refine ⟨l.addr.toSockaddr6, ?_⟩
    unfold handshakeLocals handshake
    simp only [runBytes_bind, hneg, if_true]
    rfl
  obtain ⟨i, rest, rfl, hi⟩ := passes_of_auth hneg
  by_cases h : Decodable names rest
  · refine ⟨l.addr.toSockaddr6, ?_⟩
    rw [written_handshakeLocals env hi, written_handshake _ hi]
    exact congrArg _ (written_decodable { env with resolve := names.resolve, stack := _ } rfl h l)
  · obtain ⟨rep, -, hlocals⟩ := written_refused { env with resolve := names.resolve } rfl h
    obtain ⟨saddr, -, hwritten⟩ := hlocals l
    refine ⟨saddr, ?_⟩
    obtain ⟨rep', hanswer, hlocals'⟩ :=
      written_refused { env with resolve := names.resolve, stack := saddr } rfl h
    obtain ⟨saddr', -, hwritten'⟩ := hlocals' l
    have hrep : rep = rep' := by
      have := hwritten.symm.trans hwritten'
      simp only [List.cons_append, List.nil_append, List.cons.injEq] at this
      exact this.2.1
    rw [written_handshakeLocals env hi, written_handshake _ hi, hanswer, ← hrep]
    exact congrArg _ hwritten

/-- What a server writes to a client does not depend on what the local variables hold at first. -/
def NoLeak (auth : Option Authenticator) (env : ServerEnv) (names : Names) (fs : List (List Byte)) :
    Prop :=
  ∀ l l', ((handshakeLocals auth env names l).run fs).written =
    ((handshakeLocals auth env names l').run fs).written

/-- Variables whose address consists of one byte. -/
def filled (b : Byte) : Locals := ⟨⟨⟨Vector.replicate 16 b, 0⟩, 0, 0, 0⟩, 0⟩

/-- The replies to a client do not depend on the stack, exactly if the client is not let in or its
request is decodable. -/
theorem noLeak_iff (auth : Option Authenticator) (env : ServerEnv) (names : Names)
    (fs : List (List Byte)) :
    NoLeak auth env names fs ↔
      ∀ i rest, fs.flatten = i ++ rest → Passes auth i → Decodable names rest := by
  unfold NoLeak
  simp only [(run_eq_runBytes _ fs).2.2]
  constructor
  · intro hsame i rest hs hi
    by_contra h
    obtain ⟨rep, -, hlocals⟩ := written_refused { env with resolve := names.resolve } rfl h
    -- the replies for two addresses that differ in the last byte
    obtain ⟨a₀, hlast₀, hw₀⟩ := hlocals (filled 0)
    obtain ⟨a₁, hlast₁, hw₁⟩ := hlocals (filled 1)
    have h01 := hsame (filled 0) (filled 1)
    rw [hs, written_handshakeLocals env hi, written_handshakeLocals env hi] at h01
    have hbytes := hw₀.symm.trans ((List.append_cancel_left h01).trans hw₁)
    have hlast := last_eq_of_bytes_eq (List.append_cancel_left hbytes)
    rw [hlast₀, hlast₁] at hlast
    exact absurd hlast (by decide)
  · intro h l l'
    by_cases hneg : ((Server.auth auth).runBytes fs.flatten).result < 0
    · unfold handshakeLocals
      simp only [runBytes_bind, hneg, if_true]
    obtain ⟨i, rest, hs, hi⟩ := passes_of_auth hneg
    rw [hs, written_handshakeLocals env hi, written_handshakeLocals env hi]
    have hsame := written_decodable { env with resolve := names.resolve } rfl (h i rest hs hi)
    exact congrArg _ ((hsame l).trans (hsame l').symm)

/-- A server whose system calls succeed, and which knows no name. -/
def sampleEnv : ServerEnv where
  resolve := fun _ => none
  socketStream := true
  binder := fun _ => true
  connect := fun _ => true
  socketDgram := true
  socketDgram' := true
  reuse := true
  udpBinder := fun addr => (true, addr)
  stack := ⟨Vector.replicate 16 0, 0⟩

def noNames : Names := ⟨fun _ => none, fun _ => none, fun _ => none⟩

/-- The stack is in the reply to a request of version 4, and in the reply to a request for a name
without an address. -/
theorem stack_in_reply : ¬ NoLeak none sampleEnv noNames [[5, 1, 0], [4, 1, 0, 1, 0]] ∧
    ¬ NoLeak none sampleEnv noNames [[5, 1, 0], [5, 1, 0, 3, 1, 97, 0, 80]] :=
  ⟨fun h => absurd (h (filled 7) (filled 9)) (by decide +kernel),
    fun h => absurd (h (filled 7) (filled 9)) (by decide +kernel)⟩

end Server

end HevTunnel
