import HevTunnel.Client
import HevTunnel.Server

/-! # The handshake between a client and a server

A client of this repository, in either mode, connected to its server by two byte streams.  The
schedules of the two tasks and the pieces in which the streams deliver are the runs of a `Net`.

`handshake_agreement` is the result: every run comes to an end in which both sides succeed or both
fail.  They succeed exactly if neither side uses authentication or the database has the client's
user, and then the server has decoded the client's request and no byte is left over.

Since all runs come to the same end (`Net.final_unique`), it is enough to follow one schedule, in
which every message is delivered in one piece. -/

namespace HevTunnel

open Prog Relation

/-! ### The client -/

namespace Client
variable (self : Client) {env : ClientEnv}

/-- The request of the client. -/
def request : List Byte := [5, self.kind.cmd, 0] ++ self.kind.upstreamAddr.bytes

/-- The credentials as the client sends them, if it has any. -/
def credsOut : List Byte := (self.creds.map (fun c => credsBytes c.1 c.2)).getD []

/-- A response that grants the request. -/
def Granted (resp : List Byte) : Prop := ∃ addr : Addr, ¬ addr.IsName ∧ resp = [5, 0, 0] ++ addr.bytes

theorem returns_granted {resp : List Byte} (henv : env.Succeeds) (h : Granted resp) :
    Returns (self.readResponse env) resp [] 0 := by
  obtain ⟨addr, hip, rfl⟩ := h
  exact self.returns_readResponse henv hip

theorem returns_writeAuthCreds' : Returns self.writeAuthCreds [] self.credsOut 0 := by
  unfold credsOut
  cases h : self.creds with
  | none => exact returns_writeAuthCreds_none h
  | some c => exact returns_writeAuthCreds h

/-- A pipelining client sends everything and then reads the answers. -/
theorem pipeline_moves (henv : env.Succeeds) : ∃ k,
    Moves (self.handshakePipeline env) [] ([5, 1, self.method] ++ (self.credsOut ++ self.request)) k ∧
    Returns k [5, 0xff] [] (-1) ∧
    Returns k ([5, 2] ++ [1, 0xff]) [] (-1) ∧
    (∀ resp, Granted resp → Returns k ([5, 0] ++ resp) [] 0) ∧
    (∀ resp, Granted resp → Returns k ([5, 2] ++ ([1, 0] ++ resp)) [] 0) := by
  refine ⟨_, (self.returns_writeAuthMethods.moves _).trans ((self.returns_writeAuthCreds'.moves _).trans
    (self.returns_writeRequest.moves _)), ?_, ?_, ?_, ?_⟩
  · exact (returns_readAuthMethod 0xff).bind (returns_ret _)
  · exact (returns_readAuthMethod 2).bind ((returns_readAuthCreds 0xff).bind (returns_ret _))
  · intro resp hresp
    exact (returns_readAuthMethod 0).bind ((self.returns_granted henv hresp).bind_last (returns_ret _))
  · intro resp hresp
    exact (returns_readAuthMethod 2).bind ((returns_readAuthCreds 0).bind
      ((self.returns_granted henv hresp).bind_last (returns_ret _)))

/-- The end of a standard handshake: the request is sent and the response is read. -/
def Requests (k : ClientProg Int) : Prop :=
  ∃ k', Moves k [] self.request k' ∧ ∀ resp, Granted resp → Returns k' resp [] 0

/-- A standard client waits for each answer. -/
theorem standard_moves (henv : env.Succeeds) : ∃ k,
    Moves (self.handshakeStandard env) [] [5, 1, self.method] k ∧
    Returns k [5, 0xff] [] (-1) ∧
    (∃ k₀, Moves k [5, 0] [] k₀ ∧ self.Requests k₀) ∧
    (∃ k₂, Moves k [5, 2] self.credsOut k₂ ∧ Returns k₂ [1, 0xff] [] (-1) ∧
      ∃ k₀, Moves k₂ [1, 0] [] k₀ ∧ self.Requests k₀) := by
  refine ⟨_, self.returns_writeAuthMethods.moves _, ?_, ?_, ?_⟩
  · exact (returns_readAuthMethod 0xff).bind (returns_ret _)
  · refine ⟨_, (returns_readAuthMethod 0).moves _, _, self.returns_writeRequest.moves _, ?_⟩
    exact fun resp hresp => (self.returns_granted henv hresp).bind_last (returns_ret _)
  · refine ⟨_, ((returns_readAuthMethod 2).moves _).trans (self.returns_writeAuthCreds'.moves _), ?_,
      _, (returns_readAuthCreds 0).moves _, _, self.returns_writeRequest.moves _, ?_⟩
    · exact (returns_readAuthCreds 0xff).bind (returns_ret _)
    · exact fun resp hresp => (self.returns_granted henv hresp).bind_last (returns_ret _)

end Client

/-! ### The server -/

namespace Server
variable {env : ServerEnv}

/-- The end of a handshake that fails before the request. -/
def rejected : ServerDone := ⟨-1, .none, none⟩

/-- The server refuses a method it does not want. -/
theorem moves_refuse {auth : Option Authenticator} {method : Byte} (h : method ≠ wantedMethod auth) :
    Returns (handshake auth env) [5, 1, method] [5, 0xff] rejected := by
  have hread := returns_readAuthMethod auth method
  rw [if_neg h] at hread
  have hauth : Returns (Server.auth auth) [5, 1, method] [5, 0xff] (-1) :=
    hread.bind ((returns_writeAuthMethod (-1)).bind (returns_ret _))
  exact hauth.bind (returns_ret _)

/-- The server goes on without authentication. -/
theorem moves_none : Moves (handshake none env) [5, 1, 0] [5, 0] (answer env) := by
  have hread := returns_readAuthMethod none 0
  have hauth : Returns (Server.auth none) [5, 1, 0] [5, 0] 0 :=
    hread.bind ((returns_writeAuthMethod 0).bind (returns_ret _))
  exact hauth.moves _

/-- The server asks for credentials and checks them. -/
theorem moves_user (env : ServerEnv) {auth : Authenticator} (hauth : auth.WF)
    (user pass : Client.Cred) : ∃ k,
    Moves (handshake (some auth) env) [5, 1, 2] [5, 2] k ∧
    Moves k (Client.credsBytes user.str pass.str)
      [1, verdict (⟨user.str.bytes, pass.str.bytes⟩ ∈ auth.users)]
      (if ⟨user.str.bytes, pass.str.bytes⟩ ∈ auth.users then answer env else .ret rejected) := by
  have hread := returns_readAuthMethod (some auth) 2
  refine ⟨_, ((hread.moves _).trans ((returns_writeAuthMethod 2).moves _)).bind _, ?_⟩
  have h := (returns_authUser hauth user pass).moves (fun res =>
    if res < 0 then (.ret rejected : ServerProg ServerDone) else answer env)
  by_cases hmem : ⟨user.str.bytes, pass.str.bytes⟩ ∈ auth.users
  · rw [if_pos hmem] at h ⊢
    exact h
  · rw [if_neg hmem] at h ⊢
    exact h

end Server

/-! ### Both -/

/-- A client with the credentials that the protocol can carry, or none. -/
def Client.ofCreds (kind : ClientKind) (creds : Option (Client.Cred × Client.Cred)) : Client where
  kind := kind
  user := creds.map (·.1.str)
  pass := creds.map (·.2.str)

/-- Neither side uses authentication, or both do and the database has the user. -/
def Agreed : Option (Client.Cred × Client.Cred) → Option Authenticator → Prop
  | none, none => True
  | some (user, pass), some auth => ⟨user.str.bytes, pass.str.bytes⟩ ∈ auth.users
  | _, _ => False

/-- A client and a server. -/
abbrev Pair := Net Byte ClientAct Int ServerAct ServerDone

/-- The end of a run: both succeed, with the same request and nothing left, or both fail. -/
inductive Ended (kind : ClientKind) (agreed : Prop) : Pair → Prop
  | success (h : agreed) :
      Ended kind agreed ⟨.ret 0, .ret ⟨0, kind.type, some (kind.cmd, kind.upstreamAddr)⟩, [], []⟩
  | failure (h : ¬ agreed) (up down : List Byte) :
      Ended kind agreed ⟨.ret (-1), .ret Server.rejected, up, down⟩

theorem Ended.stuck {kind : ClientKind} {agreed : Prop} {s : Pair} (h : Ended kind agreed s) :
    s.Stuck := by
  cases h with
  | success => exact Net.stuck_of_ret
  | failure => exact Net.stuck_of_ret

section run
variable {kind : ClientKind} {cenv : ClientEnv} {senv : ServerEnv} (hc : cenv.Succeeds)

include hc in
/-- A client whose method the server does not want. -/
theorem run_refused (senv : ServerEnv) (self : Client) {auth : Option Authenticator} (pipeline : Bool)
    (h : self.method ≠ Server.wantedMethod auth) : ∃ up,
    Net.Steps ⟨self.handshake cenv pipeline, Server.handshake auth senv, [], []⟩
      ⟨.ret (-1), .ret Server.rejected, up, []⟩ := by
  have hserver : Returns (Server.handshake auth senv) [5, 1, self.method] [5, 0xff]
      Server.rejected := Server.moves_refuse h
  cases pipeline with
  | true =>
      obtain ⟨k, hsend, hrefused, -⟩ := self.pipeline_moves hc
      exact ⟨_, ((Net.steps_left hsend _ [] []).trans (Net.steps_right hserver k _ [])).trans
        (Net.steps_left hrefused _ _ [])⟩
  | false =>
      obtain ⟨k, hsend, hrefused, -⟩ := self.standard_moves hc
      exact ⟨[], (Net.round hsend hserver).trans (Net.round hrefused (.refl _))⟩

include hc in
/-- A client and a server without authentication. -/
theorem run_none (hs : senv.Succeeds) (self : Client) (hcreds : self.creds = none) (pipeline : Bool) :
    Net.Steps ⟨self.handshake cenv pipeline, Server.handshake none senv, [], []⟩
      ⟨.ret 0, .ret ⟨0, self.kind.type, some (self.kind.cmd, self.kind.upstreamAddr)⟩, [], []⟩ := by
  obtain ⟨addr, hip, hanswer⟩ := Server.returns_answer hs self.kind
  have hgranted : Client.Granted ([5, 0, 0] ++ addr.bytes) := ⟨addr, hip, rfl⟩
  have hmethod : self.method = 0 := by simp [Client.method, hcreds]
  have hout : self.credsOut = [] := by simp [Client.credsOut, hcreds]
  cases pipeline with
  | true =>
      obtain ⟨k, hsend, -, -, hnone, -⟩ := self.pipeline_moves hc
      rw [hmethod, hout] at hsend
      exact (Net.round hsend (Server.moves_none.trans hanswer)).trans
        (Net.round (hnone _ hgranted) (.refl _))
  | false =>
      obtain ⟨k, hsend, -, ⟨k₀, hnone, k', hrequest, hresp⟩, -⟩ := self.standard_moves hc
      rw [hmethod] at hsend
      exact ((Net.round hsend Server.moves_none).trans (Net.round (hnone.trans hrequest) hanswer)).trans
        (Net.round (hresp _ hgranted) (.refl _))

include hc in
/-- A client with credentials that are those of a user. -/
theorem run_accepted (hs : senv.Succeeds) (self : Client) {auth : Authenticator} (hauth : auth.WF)
    {user pass : Client.Cred} (hcreds : self.creds = some (user.str, pass.str))
    (hmem : ⟨user.str.bytes, pass.str.bytes⟩ ∈ auth.users) (pipeline : Bool) :
    Net.Steps ⟨self.handshake cenv pipeline, Server.handshake (some auth) senv, [], []⟩
      ⟨.ret 0, .ret ⟨0, self.kind.type, some (self.kind.cmd, self.kind.upstreamAddr)⟩, [], []⟩ := by
  obtain ⟨addr, hip, hanswer⟩ := Server.returns_answer hs self.kind
  have hgranted : Client.Granted ([5, 0, 0] ++ addr.bytes) := ⟨addr, hip, rfl⟩
  have hmethod : self.method = 2 := by simp [Client.method, hcreds]
  have hout : self.credsOut = Client.credsBytes user.str pass.str := by simp [Client.credsOut, hcreds]
  obtain ⟨ks, hask, hcheck⟩ := Server.moves_user senv hauth user pass
  rw [Server.verdict, if_pos hmem, if_pos hmem] at hcheck
  cases pipeline with
  | true =>
      obtain ⟨k, hsend, -, -, -, huser⟩ := self.pipeline_moves hc
      rw [hmethod, hout] at hsend
      exact (Net.round hsend (hask.trans (hcheck.trans hanswer))).trans
        (Net.round (huser _ hgranted) (.refl _))
  | false =>
      obtain ⟨k, hsend, -, -, k₂, hcredsOut, -, k₀, hok, k', hrequest, hresp⟩ := self.standard_moves hc
      rw [hmethod] at hsend
      rw [hout] at hcredsOut
      exact (((Net.round hsend hask).trans (Net.round hcredsOut hcheck)).trans
        (Net.round (hok.trans hrequest) hanswer)).trans (Net.round (hresp _ hgranted) (.refl _))

include hc in
/-- A client with other credentials. -/
theorem run_rejected (senv : ServerEnv) (self : Client) {auth : Authenticator} (hauth : auth.WF)
    {user pass : Client.Cred} (hcreds : self.creds = some (user.str, pass.str))
    (hmem : ⟨user.str.bytes, pass.str.bytes⟩ ∉ auth.users) (pipeline : Bool) : ∃ up,
    Net.Steps ⟨self.handshake cenv pipeline, Server.handshake (some auth) senv, [], []⟩
      ⟨.ret (-1), .ret Server.rejected, up, []⟩ := by
  have hmethod : self.method = 2 := by simp [Client.method, hcreds]
  have hout : self.credsOut = Client.credsBytes user.str pass.str := by simp [Client.credsOut, hcreds]
  obtain ⟨ks, hask, hcheck⟩ := Server.moves_user senv hauth user pass
  rw [Server.verdict, if_neg hmem, if_neg hmem] at hcheck
  cases pipeline with
  | true =>
      obtain ⟨k, hsend, -, hbad, -⟩ := self.pipeline_moves hc
      rw [hmethod, hout, ← List.append_assoc] at hsend
      exact ⟨_, ((Net.steps_left hsend _ [] []).trans
        (Net.steps_right (hask.trans hcheck) k _ [])).trans (Net.steps_left hbad _ _ [])⟩
  | false =>
      obtain ⟨k, hsend, -, -, k₂, hcredsOut, hbad, -⟩ := self.standard_moves hc
      rw [hmethod] at hsend
      rw [hout] at hcredsOut
      exact ⟨[], ((Net.round hsend hask).trans (Net.round hcredsOut hcheck)).trans
        (Net.round hbad (.refl _))⟩

end run

/-- A client and a server at the start of their handshakes. -/
def connected (kind : ClientKind) (creds : Option (Client.Cred × Client.Cred)) (pipeline : Bool)
    (auth : Option Authenticator) (cenv : ClientEnv) (senv : ServerEnv) : Pair where
  left := (Client.ofCreds kind creds).handshake cenv pipeline
  right := Server.handshake auth senv
  up := []
  down := []

section agreement
variable (kind : ClientKind) (creds : Option (Client.Cred × Client.Cred)) (pipeline : Bool)
  (auth : Option Authenticator) (cenv : ClientEnv) (senv : ServerEnv)

/-- One schedule that comes to an end. -/
theorem exists_ended (hauth : ∀ a, auth = some a → a.WF) (hc : cenv.Succeeds) (hs : senv.Succeeds) :
    ∃ t, Net.Steps (connected kind creds pipeline auth cenv senv) t ∧
      Ended kind (Agreed creds auth) t := by
  have hcreds : (Client.ofCreds kind creds).creds = creds.map (fun c => (c.1.str, c.2.str)) := by
    cases creds <;> rfl
  have hrefused (h : (Client.ofCreds kind creds).method ≠ Server.wantedMethod auth)
      (hno : ¬ Agreed creds auth) :
      ∃ t, Net.Steps (connected kind creds pipeline auth cenv senv) t ∧
        Ended kind (Agreed creds auth) t := by
    obtain ⟨up, hrun⟩ := run_refused hc senv _ pipeline h
    exact ⟨_, hrun, .failure hno _ _⟩
  cases creds with
  | none =>
      cases auth with
      | none => exact ⟨_, run_none hc hs _ hcreds pipeline, .success trivial⟩
      | some a => exact hrefused (show (0 : Byte) ≠ 2 by decide) id
  | some c =>
      obtain ⟨user, pass⟩ := c
      cases auth with
      | none => exact hrefused (show (2 : Byte) ≠ 0 by decide) id
      | some a =>
          by_cases hmem : ⟨user.str.bytes, pass.str.bytes⟩ ∈ a.users
          · exact ⟨_, run_accepted hc hs _ (hauth a rfl) hcreds hmem pipeline, .success hmem⟩
          · obtain ⟨up, hrun⟩ := run_rejected hc senv _ (hauth a rfl) hcreds hmem pipeline
            exact ⟨_, hrun, .failure hmem _ _⟩

/-- Every run of the handshake comes to an end, and there both sides have returned.  They have
succeeded exactly if the credentials agree, and then the server has the client's request and nothing
is left in the streams. -/
theorem handshake_agreement (hauth : ∀ a, auth = some a → a.Reachable) (hc : cenv.Succeeds)
    (hs : senv.Succeeds) :
    Acc (fun s' s => Net.Step s s') (connected kind creds pipeline auth cenv senv) ∧
    ∀ s, Net.Steps (connected kind creds pipeline auth cenv senv) s → s.Stuck →
      ∃ c d, s.left = .ret c ∧ s.right = .ret d ∧
        (c = 0 ↔ Agreed creds auth) ∧ (d.res = 0 ↔ Agreed creds auth) ∧
        (Agreed creds auth → d.request = some (kind.cmd, kind.upstreamAddr) ∧ d.type = kind.type ∧
          s.up = [] ∧ s.down = []) := by
  refine ⟨Net.terminates _, fun s hrun hstuck => ?_⟩
  obtain ⟨t, ht, hend⟩ :=
    exists_ended kind creds pipeline auth cenv senv (fun a ha => (hauth a ha).wf) hc hs
  obtain rfl : s = t := hstuck.eq_of_steps (Net.final_unique ht hend.stuck hrun)
  cases hend with
  | success h => exact ⟨0, _, rfl, rfl, by simp [h], by simp [h], fun _ => ⟨rfl, rfl, rfl, rfl⟩⟩
  | failure h up down =>
      exact ⟨-1, _, rfl, rfl, by simp [h], by simp [h, Server.rejected], fun h' => absurd h' h⟩

end agreement

/-! ### A handshake -/

def sampleUser : Client.Cred := ⟨⟨[0x75, 0x31], by decide⟩, by decide, by decide⟩

def samplePass : Client.Cred := ⟨⟨[0x70], by decide⟩, by decide, by decide⟩

/-- A database with one user. -/
def sampleAuth : Authenticator := ⟨.node .black .nil ⟨[0x75, 0x31], [0x70]⟩ .nil⟩

theorem sampleAuth_reachable : sampleAuth.Reachable := by
  have h : Authenticator.empty.add ⟨[0x75, 0x31], [0x70]⟩ = some (0, sampleAuth) := rfl
  exact .add .empty h

def sampleClientEnv : ClientEnv := ⟨true, fun _ => true, fun _ => true⟩

def sampleServerEnv : ServerEnv where
  resolve := fun _ => some (Vector.replicate 16 1)
  socketStream := true
  binder := fun _ => true
  connect := fun _ => true
  socketDgram := true
  socketDgram' := true
  reuse := true
  udpBinder := fun addr => (true, addr)
  stack := ⟨Vector.replicate 16 0, 0⟩

theorem sampleClientEnv_succeeds : sampleClientEnv.Succeeds := ⟨rfl, fun _ => rfl, fun _ => rfl⟩

theorem sampleServerEnv_succeeds : sampleServerEnv.Succeeds :=
  ⟨fun _ => rfl, rfl, fun _ => rfl, fun _ => rfl, rfl, rfl, rfl, fun _ => rfl⟩

/-- A pipelining client with the user's credentials and the empty name as destination. -/
def sampleNet : Pair :=
  connected (.tcp (.name [] (by decide) 80)) (some (sampleUser, samplePass)) true (some sampleAuth)
    sampleClientEnv sampleServerEnv

theorem sampleNet_succeeds : ∃ s, Net.Steps sampleNet s ∧ s.Stuck ∧ s.left = .ret 0 ∧ s.up = [] ∧
    s.down = [] := by
  have hagreed : Agreed (some (sampleUser, samplePass)) (some sampleAuth) := List.mem_singleton_self _
  have hauth : ∀ a, some sampleAuth = some a → a.Reachable := by
    rintro a ⟨⟩
    exact sampleAuth_reachable
  obtain ⟨s, hrun, hend⟩ := exists_ended (.tcp (.name [] (by decide) 80))
    (some (sampleUser, samplePass)) true (some sampleAuth) sampleClientEnv sampleServerEnv
    (fun a ha => (hauth a ha).wf) sampleClientEnv_succeeds sampleServerEnv_succeeds
  obtain ⟨-, h⟩ := handshake_agreement (.tcp (.name [] (by decide) 80))
    (some (sampleUser, samplePass)) true (some sampleAuth) sampleClientEnv sampleServerEnv hauth
    sampleClientEnv_succeeds sampleServerEnv_succeeds
  obtain ⟨c, d, hleft, -, hc, -, hdone⟩ := h s hrun hend.stuck
  obtain ⟨-, -, hup, hdown⟩ := hdone hagreed
  rw [hc.mpr hagreed] at hleft
  exact ⟨s, hrun, hend.stuck, hleft, hup, hdown⟩

end HevTunnel
