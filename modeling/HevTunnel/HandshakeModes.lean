import HevTunnel.Client
import HevTunnel.ProcessStream

/-! # The two modes of the client's handshake

The standard and the pipelined handshake of `hev-socks5-client.c` on the same stream of replies,
whatever its bytes and wherever it ends.

`AnyClient` is a client of any type and any class: `Client` leaves out what its constructors exclude,
a type without a request and an upstream address of an unknown type.  `hev_socks5_client_write_request`
refuses both, and the pipelined mode does so before it has read anything.

`AnyClient.modes_agree`: the modes return the same.  They read the same, if there is a request.  Where
the server selects the method that it was offered, the standard mode writes what the pipelined mode
writes, up to the point where it fails.  The clients of the library have a request, so that their modes
agree (`Client.handshakes_agree`). -/

namespace HevTunnel

open Prog

/-! ### Clients of any class -/

/-- A client of any type and class.  `addr` is the memory that `get_upstream_addr` returns;
`setUpstreamAddr` gives what the class does with the address of a response, and its result. -/
structure AnyClient where
  type : SocksType
  addr : Mem
  user : Option CStr
  pass : Option CStr
  setUpstreamAddr : Addr → List ClientAct × Int

namespace AnyClient

open Client

/-- The client as the functions for its credentials see it; they do not look at the kind. -/
def auth (self : AnyClient) : Client := ⟨.udpInTcp .ipv4, self.user, self.pass⟩

/-- `req.cmd`, `none` for a type without a request. -/
def cmd (self : AnyClient) : Option Byte :=
  match self.type with
  | .tcp => some 1
  | .udpInTcp => some 5
  | .udpInUdp => some 3
  | .none => none

/-- The length of an upstream address, `none` for an unknown type. -/
def addrlen (atype len : Byte) : Option ℕ :=
  if atype = 1 then some 7
  else if atype = 4 then some 19
  else if atype = 3 then some (4 + len.toNat)
  else none

/-- The bytes of the request. -/
def request (self : AnyClient) : Option (List Byte) := do
  let cmd ← self.cmd
  let addrlen ← addrlen (self.addr 0) (self.addr 1)
  pure ([5, cmd, 0] ++ (List.range addrlen).map self.addr)

/-- `hev_socks5_client_write_request`. -/
def writeRequest (self : AnyClient) : ClientProg Int :=
  match self.request with
  | none => return -1
  | some req => do
      let ok ← sendAll req
      if !ok then return -1
      return 0

/-- One action after the other. -/
def performAll : List ClientAct → Int → ClientProg Int
  | [], res => .ret res
  | a :: as, res => .act a (performAll as res)

/-- `hev_socks5_client_read_response`. -/
def readResponse (self : AnyClient) : ClientProg Int :=
  readResponseOf (fun addr => performAll (self.setUpstreamAddr addr).1 (self.setUpstreamAddr addr).2)

/-- `hev_socks5_client_handshake_standard`. -/
def handshakeStandard (self : AnyClient) : ClientProg Int :=
  self.auth.standardOf self.writeRequest self.readResponse

/-- `hev_socks5_client_handshake_pipeline`. -/
def handshakePipeline (self : AnyClient) : ClientProg Int :=
  self.auth.pipelineOf self.writeRequest self.readResponse

end AnyClient

/-! ### The clients of the library -/

namespace Client

/-- What `set_upstream_addr` of the classes does, and its result. -/
def upstream (self : Client) (env : ClientEnv) (addr : Addr) : List ClientAct × Int :=
  if self.kind.type ≠ .udpInUdp then ([], 0)
  else
    match addrIntoSockaddr6 (fun _ => none) addr with
    | none => ([], -1)
    | some saddr =>
        if !env.socket then ([], -1)
        else if !env.binder saddr then ([.socket], -1)
        else if !env.connect saddr then ([.socket, .connect saddr], -1)
        else ([.socket, .connect saddr], 0)

/-- A client of the library among all clients. -/
def any (self : Client) (env : ClientEnv) : AnyClient where
  type := self.kind.type
  addr := fun i => self.kind.upstreamAddr.bytes.getD i 0
  user := self.user
  pass := self.pass
  setUpstreamAddr := self.upstream env

theorem setUpstreamAddr_eq (self : Client) (env : ClientEnv) (addr : Addr) :
    self.setUpstreamAddr env addr =
      AnyClient.performAll (self.upstream env addr).1 (self.upstream env addr).2 := by
  by_cases htype : self.kind.type ≠ .udpInUdp
  · simp only [setUpstreamAddr, upstream, if_pos htype]
    rfl
  · simp only [setUpstreamAddr, upstream, if_neg htype]
    cases addrIntoSockaddr6 (fun _ => none) addr with
    | none => cases env.socket <;> rfl
    | some saddr =>
        dsimp only
        cases env.socket <;> cases env.binder saddr <;> cases env.connect saddr <;> rfl

/-- Memory that starts with some bytes. -/
theorem map_range_getD (bs : List Byte) : (List.range bs.length).map (fun i => bs.getD i 0) = bs := by
  apply List.ext_getElem
  · simp
  · intro i _ hi
    simp [hi]

/-- An address in memory has the length of its bytes. -/
theorem addrlen_bytes (a : Addr) :
    AnyClient.addrlen (a.bytes.getD 0 0) (a.bytes.getD 1 0) = some a.bytes.length := by
  rw [Addr.length_bytes]
  cases a with
  | ipv4 addr port => rfl
  | ipv6 addr port => rfl
  | name domain short port =>
      have : domain.length % 256 = domain.length := by omega
      simp [AnyClient.addrlen, Addr.bytes, Addr.len, this]

theorem request_any (self : Client) (env : ClientEnv) :
    (self.any env).request = some ([5, self.kind.cmd, 0] ++ self.kind.upstreamAddr.bytes) := by
  have hcmd : (self.any env).cmd = some self.kind.cmd := by
    unfold AnyClient.cmd any
    cases self.kind <;> rfl
  have hlen : AnyClient.addrlen ((self.any env).addr 0) ((self.any env).addr 1) =
      some self.kind.upstreamAddr.bytes.length := addrlen_bytes _
  rw [AnyClient.request, hcmd, hlen]
  exact congrArg (fun bs => some ([5, self.kind.cmd, 0] ++ bs)) (map_range_getD _)

/-- The handshakes of a client of the library are the general ones. -/
theorem handshakes_any (self : Client) (env : ClientEnv) :
    (self.any env).handshakeStandard = self.handshakeStandard env ∧
    (self.any env).handshakePipeline = self.handshakePipeline env := by
  have hwrite : (self.any env).writeRequest = self.writeRequest := by
    rw [AnyClient.writeRequest, request_any]
    rfl
  have hread : (self.any env).readResponse = self.readResponse env := by
    rw [readResponse, funext (self.setUpstreamAddr_eq env)]
    rfl
  constructor
  · rw [AnyClient.handshakeStandard, hwrite, hread]
    rfl
  · rw [AnyClient.handshakePipeline, hwrite, hread]
    rfl

end Client

/-! ### What the functions do on a stream -/

namespace Client

/-- The bytes of `hev_socks5_client_write_auth_creds`, if there are credentials. -/
def credsWritten (self : Client) : List Byte :=
  match self.creds with
  | none => []
  | some (user, pass) => credsBytes user pass

theorem runBytes_writeAuthMethods (self : Client) (s : List Byte) :
    self.writeAuthMethods.runBytes s = ⟨0, s, [5, 1, self.method]⟩ := rfl

theorem runBytes_writeAuthCreds (self : Client) (s : List Byte) :
    self.writeAuthCreds.runBytes s = ⟨0, s, self.credsWritten⟩ := by
  unfold writeAuthCreds credsWritten
  cases self.creds with
  | none => rfl
  | some creds =>
      show (⟨0, s, credsBytes creds.1 creds.2 ++ []⟩ : Outcome _ _ _) = _
      rw [List.append_nil]

theorem silent_readAuthMethod : readAuthMethod.Silent := by
  refine Silent.bind (fun _ => trivial) ?_
  intro r
  split
  · split_ifs <;> exact trivial
  · exact trivial

theorem silent_readAuthCreds : readAuthCreds.Silent := by
  refine Silent.bind (fun _ => trivial) ?_
  intro r
  split
  · split_ifs <;> exact trivial
  · exact trivial

/-- The method that was selected, if there is one. -/
theorem runBytes_readAuthMethod (s : List Byte) :
    ∃ r, readAuthMethod.runBytes s = ⟨r, s.drop 2, []⟩ ∧
      (r = -1 ∨ ∃ m, s[1]? = some m ∧ r = (m.toNat : Int)) := by
  match s with
  | [] => exact ⟨-1, rfl, .inl rfl⟩
  | [_] => exact ⟨-1, rfl, .inl rfl⟩
  | ver :: m :: s =>
      by_cases hver : ver = 5
      · subst hver
        exact ⟨m.toNat, rfl, .inr ⟨m, rfl, rfl⟩⟩
      · refine ⟨-1, ?_, .inl rfl⟩
        show (if ver ≠ 5 then Prog.ret (-1) else .ret (m.toNat : Int) : ClientProg Int).runBytes s = _
        rw [if_pos hver]
        rfl

section call
variable {p : ClientProg Int} {s t out : List Byte} {r : Int}

/-- A function that is called for its result, which is negative if it fails. -/
theorem runBytes_call_fail (h : p.runBytes s = ⟨r, t, out⟩) (hr : r < 0) (k : ClientProg Int) :
    (p >>= fun res => if res < 0 then Prog.ret (-1) else k).runBytes s = ⟨-1, t, out⟩ := by
  rw [runBytes_bind, h]
  simp only [if_pos hr, runBytes, List.append_nil]

theorem runBytes_call_ok (h : p.runBytes s = ⟨r, t, out⟩) (hr : 0 ≤ r) (k : ClientProg Int) :
    (p >>= fun res => if res < 0 then Prog.ret (-1) else k).runBytes s =
      ⟨(k.runBytes t).result, (k.runBytes t).left, out ++ (k.runBytes t).written⟩ := by
  rw [runBytes_bind, h]
  simp only [if_neg (not_lt.mpr hr)]

end call

/-- The credentials are written if the method that is offered is the one for them. -/
theorem credsWritten_of_method {self : Client} (h : self.method = 0) : self.credsWritten = [] := by
  unfold method at h
  unfold credsWritten
  cases hcreds : self.creds with
  | none => rfl
  | some creds => simp [hcreds] at h

end Client

namespace AnyClient

open Client

theorem runBytes_writeRequest {self : AnyClient} {req : List Byte} (h : self.request = some req)
    (s : List Byte) : self.writeRequest.runBytes s = ⟨0, s, req⟩ := by
  unfold writeRequest
  rw [h]
  show (⟨0, s, req ++ []⟩ : Outcome _ _ _) = _
  rw [List.append_nil]

theorem runBytes_writeRequest_none {self : AnyClient} (h : self.request = none) (s : List Byte) :
    self.writeRequest.runBytes s = ⟨-1, s, []⟩ := by
  unfold writeRequest
  rw [h]
  rfl

theorem silent_performAll (as : List ClientAct) (res : Int) : (performAll as res).Silent := by
  induction as with
  | nil => trivial
  | cons a as ih => exact ih

theorem silent_readResponse (self : AnyClient) : self.readResponse.Silent := by
  refine Silent.bind (fun _ => trivial) ?_
  intro head
  split
  · split_ifs
    · exact trivial
    · exact trivial
    · cases responseLen _ with
      | none => exact trivial
      | some addrlen =>
          refine Silent.bind (fun _ => trivial) ?_
          intro data
          cases data with
          | none => exact trivial
          | some data =>
              dsimp only
              cases Addr.ofBytes _ data with
              | none => exact trivial
              | some addr =>
                  refine Silent.bind (silent_performAll _ _) ?_
                  intro res
                  split_ifs <;> exact trivial
  · exact trivial

/-- The reads of a handshake, in either mode. -/
def replies (self : AnyClient) : ClientProg Int := do
  let res ← readAuthMethod
  if res < 0 then return -1
  if res = 2 then
    let res ← readAuthCreds
    if res < 0 then return -1
  else if res ≠ 0 then return -1
  let res ← self.readResponse
  if res < 0 then return -1
  return 0

/-- All that a handshake can write. -/
def allWritten (self : AnyClient) (req : List Byte) : List Byte :=
  [5, 1, self.auth.method] ++ (self.auth.credsWritten ++ req)

theorem silent_replies (self : AnyClient) : self.replies.Silent := by
  have hlast : (self.readResponse >>= fun res => if res < 0 then Prog.ret (-1) else .ret 0).Silent := by
    refine self.silent_readResponse.bind ?_
    intro res
    split_ifs <;> exact trivial
  refine silent_readAuthMethod.bind ?_
  intro res
  dsimp only
  split_ifs
  · exact trivial
  · refine silent_readAuthCreds.bind ?_
    intro res
    split_ifs
    · exact trivial
    · exact hlast
  · exact trivial
  · exact hlast

theorem runBytes_pipeline {self : AnyClient} {req : List Byte} (h : self.request = some req)
    (s : List Byte) : self.handshakePipeline.runBytes s =
      ⟨(self.replies.runBytes s).result, (self.replies.runBytes s).left, self.allWritten req⟩ := by
  have hreq := runBytes_call_ok (runBytes_writeRequest h s) le_rfl self.replies
  have hcreds := runBytes_call_ok (self.auth.runBytes_writeAuthCreds s) le_rfl
    (self.writeRequest >>= fun res => if res < 0 then Prog.ret (-1) else self.replies)
  have hall := runBytes_call_ok (self.auth.runBytes_writeAuthMethods s) le_rfl
    (self.auth.writeAuthCreds >>= fun res => if res < 0 then Prog.ret (-1) else
      self.writeRequest >>= fun res => if res < 0 then Prog.ret (-1) else self.replies)
  rw [hcreds, hreq, self.silent_replies.written, List.append_nil] at hall
  exact hall

/-- Without a request the pipelined mode reads nothing. -/
theorem runBytes_pipeline_none {self : AnyClient} (h : self.request = none) (s : List Byte) :
    self.handshakePipeline.runBytes s = ⟨-1, s, self.allWritten []⟩ := by
  have hreq := runBytes_call_fail (runBytes_writeRequest_none h s) (by decide) self.replies
  have hcreds := runBytes_call_ok (self.auth.runBytes_writeAuthCreds s) le_rfl
    (self.writeRequest >>= fun res => if res < 0 then Prog.ret (-1) else self.replies)
  have hall := runBytes_call_ok (self.auth.runBytes_writeAuthMethods s) le_rfl
    (self.auth.writeAuthCreds >>= fun res => if res < 0 then Prog.ret (-1) else
      self.writeRequest >>= fun res => if res < 0 then Prog.ret (-1) else self.replies)
  rw [hcreds, hreq] at hall
  exact hall

/-- The end of either mode: the response. -/
def response (self : AnyClient) : ClientProg Int :=
  self.readResponse >>= fun res => if res < 0 then Prog.ret (-1) else .ret 0

/-- The end of the standard mode: the request and the response. -/
def exchange (self : AnyClient) : ClientProg Int :=
  self.writeRequest >>= fun res => if res < 0 then Prog.ret (-1) else self.response

/-- What follows the method in the standard mode. -/
def standardRest (self : AnyClient) (method : Int) : ClientProg Int :=
  if method < 0 then Prog.ret (-1)
  else if method = 2 then
    self.auth.writeAuthCreds >>= fun res => if res < 0 then Prog.ret (-1) else
      readAuthCreds >>= fun res => if res < 0 then Prog.ret (-1) else self.exchange
  else if method ≠ 0 then Prog.ret (-1)
  else self.exchange

/-- What follows the method among the reads. -/
def repliesRest (self : AnyClient) (method : Int) : ClientProg Int :=
  if method < 0 then Prog.ret (-1)
  else if method = 2 then
    readAuthCreds >>= fun res => if res < 0 then Prog.ret (-1) else self.response
  else if method ≠ 0 then Prog.ret (-1)
  else self.response

/-- The standard mode, side by side with its reads, behind the method: they stop together in front
of the request, or come to it together. -/
theorem standardRest_cases (self : AnyClient) (method : Int) (s : List Byte) :
    (∃ t out, (self.standardRest method).runBytes s = ⟨-1, t, out⟩ ∧
      (self.repliesRest method).runBytes s = ⟨-1, t, []⟩ ∧ t.length ≤ s.length ∧
      (out = [] ∨ out = self.auth.credsWritten)) ∨
    (∃ t out, (self.standardRest method).runBytes s = ⟨(self.exchange.runBytes t).result,
        (self.exchange.runBytes t).left, out ++ (self.exchange.runBytes t).written⟩ ∧
      (self.repliesRest method).runBytes s = self.response.runBytes t ∧ t.length ≤ s.length ∧
      (method = 0 ∧ out = [] ∨ method = 2 ∧ out = self.auth.credsWritten)) := by
  unfold standardRest repliesRest
  split_ifs with hneg h2 h0
  · exact .inl ⟨s, [], rfl, rfl, le_rfl, .inl rfl⟩
  · have hwrite := runBytes_call_ok (self.auth.runBytes_writeAuthCreds s) le_rfl
      (readAuthCreds >>= fun res => if res < 0 then Prog.ret (-1) else self.exchange)
    obtain ⟨r, t, hread⟩ : ∃ r t, readAuthCreds.runBytes s = ⟨r, t, []⟩ :=
      ⟨_, _, by rw [← silent_readAuthCreds.written s]⟩
    have hlen : t.length ≤ s.length := by
      have := readAuthCreds.runBytes_left_length_le s
      rwa [hread] at this
    rw [hwrite]
    by_cases hr : r < 0
    · rw [runBytes_call_fail hread hr, runBytes_call_fail hread hr, List.append_nil]
      exact .inl ⟨t, _, rfl, rfl, hlen, .inr rfl⟩
    · rw [runBytes_call_ok hread (not_lt.mp hr), runBytes_call_ok hread (not_lt.mp hr)]
      exact .inr ⟨t, self.auth.credsWritten, rfl, rfl, hlen, .inr ⟨h2, rfl⟩⟩
  · exact .inl ⟨s, [], rfl, rfl, le_rfl, .inl rfl⟩
  · exact .inr ⟨s, [], rfl, rfl, le_rfl, .inl ⟨not_not.mp h0, rfl⟩⟩

theorem runBytes_replies (self : AnyClient) {s : List Byte} {r : Int}
    (h : readAuthMethod.runBytes s = ⟨r, s.drop 2, []⟩) :
    self.replies.runBytes s = (self.repliesRest r).runBytes (s.drop 2) := by
  show (readAuthMethod >>= self.repliesRest).runBytes s = _
  rw [runBytes_bind, h]
  rfl

theorem runBytes_standard (self : AnyClient) {s : List Byte} {r : Int}
    (h : readAuthMethod.runBytes s = ⟨r, s.drop 2, []⟩) :
    self.handshakeStandard.runBytes s =
      ⟨((self.standardRest r).runBytes (s.drop 2)).result,
        ((self.standardRest r).runBytes (s.drop 2)).left,
        [5, 1, self.auth.method] ++ ((self.standardRest r).runBytes (s.drop 2)).written⟩ := by
  have hread : (readAuthMethod >>= self.standardRest).runBytes s =
      (self.standardRest r).runBytes (s.drop 2) := by
    rw [runBytes_bind, h]
    rfl
  rw [← hread]
  exact runBytes_call_ok (self.auth.runBytes_writeAuthMethods s) le_rfl
    (readAuthMethod >>= self.standardRest)

/-- With a request the exchange is the request and the response. -/
theorem runBytes_exchange {self : AnyClient} {req : List Byte} (h : self.request = some req)
    (t : List Byte) : self.exchange.runBytes t =
      ⟨(self.response.runBytes t).result, (self.response.runBytes t).left, req⟩ := by
  have hsilent : self.response.Silent := by
    refine self.silent_readResponse.bind ?_
    intro res
    split_ifs <;> exact trivial
  have hcall := runBytes_call_ok (runBytes_writeRequest h t) le_rfl self.response
  rwa [hsilent.written, List.append_nil] at hcall

theorem runBytes_exchange_none {self : AnyClient} (h : self.request = none) (t : List Byte) :
    self.exchange.runBytes t = ⟨-1, t, []⟩ :=
  runBytes_call_fail (runBytes_writeRequest_none h t) (by decide) self.response

/-! ### The modes side by side -/

/-- There is a request: the type has a command, and the type of the upstream address is known. -/
def HasRequest (self : AnyClient) : Prop :=
  self.type ≠ .none ∧ (self.addr 0 = 1 ∨ self.addr 0 = 4 ∨ self.addr 0 = 3)

theorem hasRequest_iff (self : AnyClient) : self.HasRequest ↔ ∃ req, self.request = some req := by
  have hcmd : self.type ≠ .none ↔ ∃ c, self.cmd = some c := by
    unfold cmd
    cases self.type <;> simp
  have hlen : (self.addr 0 = 1 ∨ self.addr 0 = 4 ∨ self.addr 0 = 3) ↔
      ∃ n, addrlen (self.addr 0) (self.addr 1) = some n := by
    unfold addrlen
    split_ifs <;> simp [*]
  rw [HasRequest, hcmd, hlen]
  simp only [request, Option.bind_eq_bind, Option.pure_def, Option.bind_eq_some_iff]
  constructor
  · rintro ⟨⟨c, hc⟩, n, hn⟩
    exact ⟨_, c, hc, n, hn, rfl⟩
  · rintro ⟨_, c, hc, n, hn, -⟩
    exact ⟨⟨c, hc⟩, n, hn⟩

/-- The modes on a stream: the same result, the same bytes read, and, where the method that was
offered is selected, the same bytes written up to a failure. -/
theorem runBytes_modes {self : AnyClient} {req : List Byte} (h : self.request = some req)
    (s : List Byte) :
    (self.handshakeStandard.runBytes s).result = (self.handshakePipeline.runBytes s).result ∧
    (self.handshakeStandard.runBytes s).left = (self.handshakePipeline.runBytes s).left ∧
    (s[1]? = some self.auth.method →
      (self.handshakeStandard.runBytes s).written <+: self.allWritten req ∧
      ((self.handshakeStandard.runBytes s).result = 0 →
        (self.handshakeStandard.runBytes s).written = self.allWritten req)) := by
  obtain ⟨r, hread, hr⟩ := runBytes_readAuthMethod s
  rw [self.runBytes_standard hread, runBytes_pipeline h, self.runBytes_replies hread]
  rcases self.standardRest_cases r (s.drop 2) with ⟨t, out, hstd, hrep, -, hout⟩ |
    ⟨t, out, hstd, hrep, -, hout⟩
  · rw [hstd, hrep]
    refine ⟨rfl, rfl, ?_⟩
    intro _
    refine ⟨?_, fun h0 => absurd (show (-1 : Int) = 0 from h0) (by decide)⟩
    apply List.prefix_append_right_inj _ |>.mpr
    rcases hout with rfl | rfl
    · exact List.nil_prefix
    · exact List.prefix_append _ _
  · rw [hstd, hrep, runBytes_exchange h]
    refine ⟨rfl, rfl, ?_⟩
    intro hmethod
    have hwritten : out = self.auth.credsWritten := by
      rcases hout with ⟨hr0, rfl⟩ | ⟨-, hout⟩
      · -- the server has selected the method without credentials, and it was offered
        rcases hr with hr | ⟨m, hm, hr⟩
        · rw [hr] at hr0
          exact absurd hr0 (by decide)
        · rw [hm] at hmethod
          have hm0 : m = 0 := UInt8.toNat_inj.mp (by simpa using hr.symm.trans hr0)
          rw [credsWritten_of_method ((Option.some.inj hmethod).symm.trans hm0)]
      · exact hout
    rw [hwritten]
    exact ⟨List.prefix_rfl, fun _ => rfl⟩

/-- Without a request both modes fail, the standard mode behind the method. -/
theorem runBytes_modes_none {self : AnyClient} (h : self.request = none) (s : List Byte) :
    (self.handshakeStandard.runBytes s).result = -1 ∧
    (self.handshakeStandard.runBytes s).left.length ≤ s.length - 2 ∧
    (s[1]? = some self.auth.method →
      (self.handshakeStandard.runBytes s).written <+: self.allWritten []) := by
  obtain ⟨r, hread, hr⟩ := runBytes_readAuthMethod s
  rw [self.runBytes_standard hread, allWritten, List.append_nil]
  have hprefix : ∀ out, out = [] ∨ out = self.auth.credsWritten →
      [5, 1, self.auth.method] ++ out <+: [5, 1, self.auth.method] ++ self.auth.credsWritten := by
    intro out hout
    apply List.prefix_append_right_inj _ |>.mpr
    rcases hout with rfl | rfl
    · exact List.nil_prefix
    · exact List.prefix_rfl
  rcases self.standardRest_cases r (s.drop 2) with ⟨t, out, hstd, -, hlen, hout⟩ |
    ⟨t, out, hstd, -, hlen, hout⟩
  · rw [hstd]
    rw [List.length_drop] at hlen
    exact ⟨rfl, hlen, fun _ => hprefix out hout⟩
  · rw [hstd, runBytes_exchange_none h]
    rw [List.length_drop] at hlen
    refine ⟨rfl, hlen, ?_⟩
    intro _
    rw [List.append_nil]
    apply hprefix
    rcases hout with ⟨-, hout⟩ | ⟨-, hout⟩
    · exact .inl hout
    · exact .inr hout

/-- The two modes on one stream of replies, cut into pieces in two ways.  They return the same.  They
read equally much if and only if there is a request, or nothing to read.  Where the server selects
the method that was offered, the standard mode writes the beginning of what the pipelined mode
writes, and all of it if it succeeds. -/
theorem modes_agree (self : AnyClient) {fs gs : List (List Byte)} (h : fs.flatten = gs.flatten) :
    (self.handshakeStandard.run fs).result = (self.handshakePipeline.run gs).result ∧
    (self.handshakeStandard.consumed fs = self.handshakePipeline.consumed gs ↔
      self.HasRequest ∨ fs.flatten = []) ∧
    (fs.flatten[1]? = some self.auth.method →
      (self.handshakeStandard.run fs).written <+: (self.handshakePipeline.run gs).written ∧
      ((self.handshakeStandard.run fs).result = 0 →
        (self.handshakeStandard.run fs).written = (self.handshakePipeline.run gs).written)) := by
  obtain ⟨hres, -, hwr⟩ := self.handshakeStandard.run_eq_runBytes fs
  obtain ⟨hres', -, hwr'⟩ := self.handshakePipeline.run_eq_runBytes gs
  rw [hres, hres', hwr, hwr', consumed_eq, consumed_eq, ← h, self.hasRequest_iff]
  generalize fs.flatten = s
  cases hreq : self.request with
  | some req =>
      obtain ⟨h₁, h₂, h₃⟩ := runBytes_modes hreq s
      refine ⟨h₁, ⟨fun _ => .inl ⟨req, rfl⟩, fun _ => by rw [h₂]⟩, ?_⟩
      rw [runBytes_pipeline hreq]
      exact h₃
  | none =>
      obtain ⟨h₁, h₂, h₃⟩ := runBytes_modes_none hreq s
      rw [runBytes_pipeline_none hreq]
      refine ⟨h₁, ?_, ?_⟩
      · constructor
        · intro hcount
          refine .inr (List.length_eq_zero_iff.mp ?_)
          simp only at hcount
          omega
        · rintro (⟨req, hreq'⟩ | rfl)
          · cases hreq'
          · simp
      · intro hmethod
        refine ⟨h₃ hmethod, ?_⟩
        intro h0
        rw [h₁] at h0
        exact absurd h0 (by decide)

/-- A client without a type: the standard mode reads the method, the pipelined mode nothing. -/
example :
    let self : AnyClient := ⟨.none, fun i => if i = 0 then 1 else 0, none, none, fun _ => ([], 0)⟩
    self.handshakeStandard.consumed [[5, 0]] = 2 ∧ self.handshakePipeline.consumed [[5, 0]] = 0 :=
  ⟨rfl, rfl⟩

end AnyClient

namespace Client

theorem hasRequest_any (self : Client) (env : ClientEnv) : (self.any env).HasRequest :=
  (self.any env).hasRequest_iff.mpr ⟨_, self.request_any env⟩

/-- The two modes of a client of the library on one stream of replies, cut into pieces in two ways.  They
return the same and read equally much.  Where the server selects the method that was offered, the
standard mode writes the beginning of what the pipelined mode writes, and all of it if it succeeds. -/
theorem handshakes_agree (self : Client) (env : ClientEnv) {fs gs : List (List Byte)}
    (h : fs.flatten = gs.flatten) :
    ((self.handshakeStandard env).run fs).result = ((self.handshakePipeline env).run gs).result ∧
    (self.handshakeStandard env).consumed fs = (self.handshakePipeline env).consumed gs ∧
    (fs.flatten[1]? = some self.method →
      ((self.handshakeStandard env).run fs).written <+: ((self.handshakePipeline env).run gs).written ∧
      (((self.handshakeStandard env).run fs).result = 0 →
        ((self.handshakeStandard env).run fs).written = ((self.handshakePipeline env).run gs).written)) := by
  obtain ⟨hres, hcount, hwritten⟩ := (self.any env).modes_agree h
  rw [(self.handshakes_any env).1, (self.handshakes_any env).2] at hres hcount hwritten
  exact ⟨hres, hcount.mpr (.inl (self.hasRequest_any env)), hwritten⟩

/-- A UDP client with credentials. -/
def udpClient : Client :=
  ⟨.udpInUdp .ipv4, some ⟨[0x75, 0x32], by decide⟩, some ⟨[0x70, 0x32], by decide⟩⟩

/-- All system calls succeed. -/
def openEnv : ClientEnv := ⟨true, fun _ => true, fun _ => true⟩

/-- The replies of a server, at once and in pieces: the method, the credentials and the response. -/
def sampleReplies (pieces : Bool) : List (List Byte) :=
  if pieces then [[5], [2, 1], [0], [5, 0, 0, 1, 10], [0, 0, 1, 4], [56]]
  else [[5, 2, 1, 0, 5, 0, 0, 1, 10, 0, 0, 1, 4, 56]]

theorem handshakes_agree_sample :
    (sampleReplies false).flatten = (sampleReplies true).flatten ∧
    (udpClient.handshakeStandard openEnv).consumed (sampleReplies false) =
      (udpClient.handshakePipeline openEnv).consumed (sampleReplies true) ∧
    ((udpClient.handshakePipeline openEnv).run (sampleReplies true)).result = 0 ∧
    ((udpClient.handshakeStandard openEnv).run (sampleReplies false)).written =
      ((udpClient.handshakePipeline openEnv).run (sampleReplies true)).written := by
  have hsame : (sampleReplies false).flatten = (sampleReplies true).flatten := rfl
  obtain ⟨hres, hcount, hwritten⟩ := udpClient.handshakes_agree openEnv hsame
  have hok : ((udpClient.handshakeStandard openEnv).run (sampleReplies false)).result = 0 := rfl
  exact ⟨hsame, hcount, hres.symm.trans hok, (hwritten rfl).2 hok⟩

end Client

end HevTunnel
