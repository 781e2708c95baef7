import HevTunnel.Handshake
import HevTunnel.TaskIO

/-! # What a server does for a client that it does not trust

`Prog.exec` runs a program over the sockets of the task system, with every way in which they can
deliver the bytes, time out or end.  Whatever it does is a run of the program in the sense of `Runs`
(`exec_runs`), so a property of all runs holds for it.

`no_auth_bypass` is the result for a server with an authenticator: before it reads a request, opens a
socket or sends a positive answer, the client has sent the name and the password of a user. -/

namespace HevTunnel

open Prog

/-- A program over a socket to read from and the events that its writes meet: the trace, and the
result unless a call has not returned yet. -/
def Prog.exec {α ρ : Type} :
    Prog Byte α ρ → Sock → List IoEvent → List (Event Byte α) × Option ρ
  | .ret r, _, _ => ([], some r)
  | .recv n k, s, es =>
      match HevTunnel.recv s n false true with
      | none => ([], none)
      | some (res, data, s') => (k (if res = n then some data else none)).exec s' es
  | .send bs k, s, es =>
      match sendmsg [bs] es with
      | none => ([], none)
      | some (res, _, es') =>
          let (tr, r) := (k (decide (0 < res))).exec s es'
          (.send bs :: tr, r)
  | .act a k, s, es =>
      let (tr, r) := k.exec s es
      (.act a :: tr, r)

/-- What is executed is a run over a part of the input. -/
theorem exec_runs {α ρ : Type} (p : Prog Byte α ρ) (s : Sock) (es : List IoEvent) :
    ∃ inp rest, s.input = inp ++ rest ∧ Runs p inp (p.exec s es).1 (p.exec s es).2 := by
  induction p generalizing s es with
  | ret r => exact ⟨[], s.input, rfl, .ret r⟩
  | recv n k ih =>
      unfold Prog.exec
      cases hrecv : HevTunnel.recv s n false true with
      | none => exact ⟨[], s.input, rfl, .wait _⟩
      | some res =>
          obtain ⟨res, data, s'⟩ := res
          obtain ⟨hinput, hlen, hres⟩ := recv_waitall hrecv
          obtain ⟨inp, rest, hinp, hruns⟩ := ih (if res = n then some data else none) s' es
          refine ⟨data ++ inp, rest, by rw [hinput, hinp, List.append_assoc], ?_⟩
          by_cases hn : res = n
          · have hdata : data.length = n := by
              obtain hres | ⟨-, hneg⟩ := hres
              · omega
              · omega
            rw [if_pos hn] at hruns
            simp only [if_pos hn]
            exact .recv hdata hruns
          · rw [if_neg hn] at hruns
            simp only [if_neg hn]
            exact .recvFail hlen hruns
  | send bs k ih =>
      unfold Prog.exec
      cases hsend : sendmsg [bs] es with
      | none => exact ⟨[], s.input, rfl, .wait _⟩
      | some res =>
          obtain ⟨res, out, es'⟩ := res
          obtain ⟨inp, rest, hinp, hruns⟩ := ih (decide (0 < res)) s es'
          exact ⟨inp, rest, hinp, .send _ hruns⟩
  | act a k ih =>
      obtain ⟨inp, rest, hinp, hruns⟩ := ih s es
      exact ⟨inp, rest, hinp, .act hruns⟩

namespace Server
variable {auth : Authenticator} {env : ServerEnv} {i : List Byte} {tr : List (Event Byte ServerAct)}

/-- A sub-negotiation with the name and the password of a user. -/
def NamesUser (auth : Authenticator) : List Byte → Prop :=
  Credentials fun name pass => ⟨name, pass⟩ ∈ auth.users

/-- The stream starts with a list that offers the user method, and the credentials of a user. -/
def Authenticated (auth : Authenticator) (i : List Byte) : Prop :=
  ∃ i₁ i₂ rest, i = i₁ ++ i₂ ++ rest ∧ Offers 2 i₁ ∧ NamesUser auth i₂

/-- Events that tell nothing but the state of the authentication: no action, and no message that
starts like a positive answer. -/
def Harmless : Event Byte ServerAct → Prop
  | .send bs => ¬ [5, 0] <+: bs
  | .act _ => False

/-! ### Runs of a check -/

/-- The outcome of a check over a connection that may fail: it does nothing but talk, and it has not
returned, has returned `-1`, or has returned `x` with `P`. -/
def Outcome (tr : List (Event Byte ServerAct)) (r : Option Int) (x : Int) (P : Prop) : Prop :=
  (∀ e ∈ tr, Harmless e) ∧ (r = none ∨ r = some (-1) ∨ (r = some x ∧ P))

namespace Outcome
variable {r : Option Int} {x : Int} {P : Prop}

theorem of_ret (h : Runs (.ret x : ServerProg Int) i tr r) (hP : i = [] → P) : Outcome tr r x P := by
  obtain ⟨hi, rfl, hr | hr⟩ := h.of_ret
  · exact ⟨by simp, .inl hr⟩
  · exact ⟨by simp, .inr (.inr ⟨hr, hP hi⟩)⟩

theorem of_ret_neg (h : Runs (.ret (-1) : ServerProg Int) i tr r) : Outcome tr r x P := by
  obtain ⟨-, rfl, hr | hr⟩ := h.of_ret
  · exact ⟨by simp, .inl hr⟩
  · exact ⟨by simp, .inr (.inl hr)⟩

/-- A check that reads and gives up if it does not get its bytes. -/
theorem of_recv {n : ℕ} {f : Option (List Byte) → ServerProg Int}
    (h : Runs (recvAll n >>= f) i tr r) (hnone : f none = .ret (-1))
    (hsome : ∀ inp i', inp.length = n → i = inp ++ i' → Runs (f (some inp)) i' tr r →
      Outcome tr r x P) : Outcome tr r x P := by
  obtain ⟨inp, i', hlen, hi, h⟩ | ⟨i', h⟩ | ⟨rfl, rfl, rfl⟩ := h.of_recv_bind
  · exact hsome inp i' hlen hi h
  · rw [hnone] at h
    exact .of_ret_neg h
  · exact ⟨by simp, .inl rfl⟩

/-- A check that starts with another one. -/
theorem of_bind {p : ServerProg Int} {f : Int → ServerProg Int} {y : Int} {Q : List Byte → Prop}
    (h : Runs (p >>= f) i tr r) (hp : ∀ {i tr r}, Runs p i tr r → Outcome tr r y (Q i))
    (hf : ∀ i₁ i₂ res tr', i = i₁ ++ i₂ → (res = -1 ∨ (res = y ∧ Q i₁)) → Runs (f res) i₂ tr' r →
      Outcome tr' r x P) : Outcome tr r x P := by
  obtain ⟨hr, h₁⟩ | ⟨res, i₁, i₂, tr₁, tr₂, hi, rfl, h₁, h₂⟩ := h.of_bind
  · exact ⟨(hp h₁).1, .inl hr⟩
  · obtain ⟨htr₁, hres⟩ := hp h₁
    have hres : res = -1 ∨ (res = y ∧ Q i₁) := by simpa using hres
    obtain ⟨htr₂, hr⟩ := hf i₁ i₂ res tr₂ hi hres h₂
    refine ⟨?_, hr⟩
    intro e he
    obtain he | he := List.mem_append.mp he
    · exact htr₁ e he
    · exact htr₂ e he

/-- A function that writes one message. -/
theorem of_write {bs : List Byte} (hbs : ¬ [5, 0] <+: bs)
    (h : Runs (sendAll bs >>= fun ok => if !ok then .ret (-1) else .ret 0 : ServerProg Int) i tr r) :
    Outcome tr r 0 (i = []) := by
  obtain ⟨ok, tr', rfl, h⟩ | ⟨rfl, rfl, rfl⟩ := h.of_send_bind
  · have hout : Outcome tr' r 0 (i = []) := by
      cases ok with
      | true => exact .of_ret h id
      | false => exact .of_ret_neg h
    refine ⟨?_, hout.2⟩
    intro e he
    obtain rfl | he := List.mem_cons.mp he
    · exact hbs
    · exact hout.1 e he
  · exact ⟨by simp, .inl rfl⟩

end Outcome

theorem runs_readAuthMethod {r : Option Int} (h : Runs (readAuthMethod (some auth)) i tr r) :
    Outcome tr r 2 (Offers 2 i) := by
  apply Outcome.of_recv h rfl
  rintro head i₁ hhead rfl h
  obtain ⟨ver, n, rfl⟩ := List.length_eq_two.mp hhead
  dsimp only at h
  split_ifs at h with hver
  · exact .of_ret_neg h
  · apply Outcome.of_recv h rfl
    rintro methods i₂ hmethods rfl h
    dsimp only at h
    split_ifs at h with hmem
    · apply Outcome.of_ret h
      rintro rfl
      exact ⟨n, methods, by simp [not_not.mp hver], hmethods, hmem⟩
    · exact .of_ret_neg h

theorem runs_readAuthUser (hauth : auth.WF) {r : Option Int} (h : Runs (readAuthUser auth) i tr r) :
    Outcome tr r 0 (NamesUser auth i) := by
  apply Outcome.of_recv h rfl
  rintro head i₁ hhead rfl h
  obtain ⟨ver, nlen, rfl⟩ := List.length_eq_two.mp hhead
  dsimp only at h
  split_ifs at h with hver hnlen
  · exact .of_ret_neg h
  · exact .of_ret_neg h
  · apply Outcome.of_recv h rfl
    rintro buf i₂ hbuf rfl h
    -- the name and, behind it, the length of the password
    obtain ⟨name, plen, rfl⟩ : ∃ name plen, buf = name ++ [plen] :=
      ⟨_, _, (List.dropLast_append_getLast (by rintro rfl; simp at hbuf)).symm⟩
    have hname : name.length = nlen.toNat := by simpa using hbuf
    have hget : (name ++ [plen]).getD nlen.toNat 0 = plen := by simp [← hname]
    have htake : (name ++ [plen]).take nlen.toNat = name := by simp [← hname]
    simp only [hget, htake] at h
    split_ifs at h with hplen
    · exact .of_ret_neg h
    · apply Outcome.of_recv h rfl
      rintro pass i₃ hpass rfl h
      cases huser : auth.get name with
      | none =>
          simp only [huser] at h
          exact .of_ret_neg h
      | some user =>
          simp only [huser] at h
          split_ifs at h with hcheck
          · exact .of_ret_neg h
          · have hzero : user.check pass = 0 := by
              obtain hzero | hneg := user.check_cases pass
              · exact hzero
              · rw [hneg] at hcheck
                exact absurd (by decide) hcheck
            apply Outcome.of_ret h
            rintro rfl
            refine ⟨nlen, name, plen, pass, by simp [not_not.mp hver], hnlen, hplen, hname, hpass, ?_⟩
            exact hauth.mem_users_iff.mpr ⟨user, huser, hzero⟩

/-- The second half of the authentication, for the method that was chosen. -/
theorem runs_authUser (hauth : auth.WF) {r : Option Int} (h : Runs (authUser (some auth) 2) i tr r) :
    Outcome tr r 0 (∃ i₁ rest, i = i₁ ++ rest ∧ NamesUser auth i₁) := by
  apply Outcome.of_bind h (runs_readAuthUser hauth)
  rintro i₁ i₂ res tr rfl hres h
  apply Outcome.of_bind h (Outcome.of_write (by simp))
  rintro i₃ i₄ res' tr rfl hres' h
  -- the result is negative if one of the two is
  obtain rfl | ⟨rfl, hnames⟩ := hres
  · obtain rfl | ⟨rfl, -⟩ := hres'
    · exact .of_ret_neg h
    · exact .of_ret_neg h
  · obtain rfl | ⟨rfl, -⟩ := hres'
    · exact .of_ret_neg h
    · exact .of_ret h (fun _ => ⟨i₁, _, rfl, hnames⟩)

theorem runs_auth (hauth : auth.WF) {r : Option Int} (h : Runs (Server.auth (some auth)) i tr r) :
    Outcome tr r 0 (Authenticated auth i) := by
  apply Outcome.of_bind h runs_readAuthMethod
  rintro i₁ i₂ method tr₁ rfl hmethod h₁
  have hno : ¬ [5, 0] <+: [5, byteOfInt method] := by
    obtain rfl | ⟨rfl, -⟩ := hmethod <;> decide
  apply Outcome.of_bind h₁ (Outcome.of_write hno)
  rintro i₃ i₄ res tr₂ rfl hres h₂
  obtain rfl | ⟨rfl, rfl⟩ := hres
  · exact .of_ret_neg h₂
  · obtain rfl | ⟨rfl, hoffers⟩ := hmethod
    · exact .of_ret_neg h₂
    · obtain ⟨htr, hr⟩ := runs_authUser hauth h₂
      refine ⟨htr, hr.imp_right (Or.imp_right (And.imp_right ?_))⟩
      rintro ⟨i₅, rest, rfl, hnames⟩
      exact ⟨i₁, i₅, rest, by simp, hoffers, hnames⟩

/-! ### The result -/

/-- What only an authenticated client may cause: a request is read or a socket opened, a positive
answer is sent, or the handshake succeeds. -/
def Granted (tr : List (Event Byte ServerAct)) (r : Option ServerDone) : Prop :=
  (∃ e ∈ tr, ¬ Harmless e) ∨ ∃ d, r = some d ∧ d.res = 0

theorem runs_handshake (hauth : auth.WF) {r : Option ServerDone}
    (h : Runs (handshake (some auth) env) i tr r) (hgranted : Granted tr r) : Authenticated auth i := by
  obtain ⟨rfl, h₁⟩ | ⟨res, i₁, i₂, tr₁, tr₂, rfl, rfl, h₁, h₂⟩ := Runs.of_bind h
  · obtain ⟨e, he, hbad⟩ | ⟨d, hd, -⟩ := hgranted
    · exact absurd ((runs_auth hauth h₁).1 e he) hbad
    · cases hd
  · obtain ⟨htr, hr⟩ := runs_auth hauth h₁
    have hr : res = -1 ∨ (res = 0 ∧ Authenticated auth i₁) := by simpa using hr
    obtain rfl | ⟨rfl, i₃, i₄, rest, rfl, hoffers, hnames⟩ := hr
    · obtain ⟨-, rfl, hr⟩ := Runs.of_ret h₂
      obtain ⟨e, he, hbad⟩ | ⟨d, hd, hzero⟩ := hgranted
      · rw [List.append_nil] at he
        exact absurd (htr e he) hbad
      · obtain hr | hr := hr
        · rw [hr] at hd
          cases hd
        · rw [hr] at hd
          cases hd
          exact absurd hzero (by decide)
    · exact ⟨i₃, i₄, rest ++ i₂, by simp, hoffers, hnames⟩

end Server

/-- A server with an authenticator does nothing for a client before the client has sent the name and
the password of a user, however the stream is delivered and wherever it ends. -/
theorem no_auth_bypass (auth : Authenticator) (hauth : auth.Reachable) (env : ServerEnv) (s : Sock)
    (writes : List IoEvent)
    (hgranted : Server.Granted ((Server.handshake (some auth) env).exec s writes).1
      ((Server.handshake (some auth) env).exec s writes).2) :
    Server.Authenticated auth s.input := by
  obtain ⟨inp, rest, hinput, hruns⟩ := exec_runs (Server.handshake (some auth) env) s writes
  obtain ⟨i₁, i₂, rest', rfl, hoffers, hnames⟩ := Server.runs_handshake hauth.wf hruns hgranted
  exact ⟨i₁, i₂, rest' ++ rest, by rw [hinput, List.append_assoc], hoffers, hnames⟩

/-- A client of the one user, whose messages come byte by byte, with an interruption. -/
def sampleSock : Sock where
  input := [5, 2, 0, 2, 1, 2, 0x75, 0x31, 1, 0x70, 5, 1, 0, 1, 127, 0, 0, 1, 0, 80]
  events := .again :: List.replicate 20 (.data 0)
  eagain := false

theorem sampleSock_authenticated :
    Server.Granted ((Server.handshake (some sampleAuth) sampleServerEnv).exec sampleSock
      (List.replicate 3 (.data 99))).1
      ((Server.handshake (some sampleAuth) sampleServerEnv).exec sampleSock
        (List.replicate 3 (.data 99))).2 ∧
    Server.Authenticated sampleAuth sampleSock.input := by
  have hgranted : Server.Granted ((Server.handshake (some sampleAuth) sampleServerEnv).exec sampleSock
      (List.replicate 3 (.data 99))).1
      ((Server.handshake (some sampleAuth) sampleServerEnv).exec sampleSock
        (List.replicate 3 (.data 99))).2 := by
    refine .inl ⟨.act .socketStream, ?_, id⟩
    decide +kernel
  exact ⟨hgranted, no_auth_bypass sampleAuth sampleAuth_reachable sampleServerEnv sampleSock
    (List.replicate 3 (.data 99)) hgranted⟩

end HevTunnel
