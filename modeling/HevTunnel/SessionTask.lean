import HevTunnel.Client
import HevTunnel.Transition

/-! # The task of a session

`hev_socks5_session_run` connects to the server, makes the handshake and relays until a wait fails.
`hev_socks5_session_terminate` asks for the end of it: it stores the timeout 0 and wakes the task up.

* `yielder` is `hev_socks5_task_io_yielder`: a wait for I/O with the timeout 0 fails at once, but a
  `HEV_TASK_YIELD` does not look at the timeout.
* `SessionTask.step` is the task with the answers that its calls get, together with what the rest of
  the program does to it in between.  `Since` records what has happened since the first call of
  `terminate`; the code does not have it. -/

namespace HevTunnel

open Prog

/-! ### The task system -/

/-- `HevTaskYieldType`. -/
inductive YieldType where
  | yield
  | waitio
deriving DecidableEq, Repr

/-- `HevTaskState`. -/
inductive TaskState where
  | stopped
  | running
  | waiting
deriving DecidableEq, Repr

/-- `hev_task_wakeup`; `none` is its `abort`. -/
def TaskState.wakeup : TaskState → Option TaskState
  | stopped => none
  | running => some running
  | waiting => some running

/-- Where a task has given up the processor. -/
inductive Pause where
  /-- `hev_task_yield (HEV_TASK_YIELD)` of the yielder. -/
  | yield
  /-- `hev_task_yield (HEV_TASK_WAITIO)` of the yielder. -/
  | waitio
  /-- `hev_task_sleep` of the yielder. -/
  | sleep
  /-- A wait that does not go through the yielder, for the resolver or a mutex. -/
  | other
deriving DecidableEq, Repr

/-- The state of a task that pauses. -/
def Pause.taskState : Pause → TaskState
  | yield => .running
  | waitio => .waiting
  | sleep => .waiting
  | other => .waiting

/-- Whether the wait has been successful, where `left` is the result of `hev_task_sleep`. -/
def Pause.passes (left : ℕ) : Pause → Bool
  | sleep => decide (0 < left)
  | _ => true

/-- `hev_socks5_task_io_yielder` up to its pause; `none` if it returns `-1` without one. -/
def yielder (type : YieldType) (timeout : Int) : Option Pause :=
  match type with
  | .yield => some .yield
  | .waitio =>
      if timeout < 0 then some .waitio
      else if timeout = 0 then none
      else some .sleep

/-! ### The session -/

/-- What a session is created with, and the timeouts of the configuration. -/
structure Session where
  client : Client
  env : ClientEnv
  pipeline : Bool
  connectTimeout : Int
  tcpTimeout : Int
  udpTimeout : Int

/-- `HEV_SOCKS5 (self)->type`. -/
def Session.type (c : Session) : SocksType := c.client.kind.type

/-- What a splice function (`tcp_splice_f`, `tcp_splice_b`, `hev_socks5_session_udp_fwd_f`,
`hev_socks5_session_udp_fwd_b`) has done since it was called or went on after a wait. -/
inductive Spliced where
  | moved
  | nothing
  /-- It fails, perhaps after it has moved something. -/
  | failed (moved : Bool)
deriving DecidableEq, Repr

namespace Spliced

/-- Its result. -/
def res : Spliced → Int
  | moved => 1
  | nothing => 0
  | failed _ => -1

/-- Whether data has been moved. -/
def relays : Spliced → Bool
  | moved => true
  | nothing => false
  | failed m => m

end Spliced

/-- How the splice loops yield after a round with these results; `none` if they stop. -/
def roundType (resF resB : Int) : Option YieldType :=
  if 0 < resF ∨ 0 < resB then some .yield
  else if BitVec.ofInt 32 resF &&& BitVec.ofInt 32 resB = 0 then some .waitio
  else none

/-- A point of `hev_socks5_session_run`. -/
inductive Point where
  | start
  /-- In `hev_socks5_client_connect`, up to the socket. -/
  | resolve
  /-- In `hev_task_io_socket_connect`. -/
  | connect
  /-- In `hev_socks5_client_handshake`, with what is left of it and whether the write that is going
  on has written something. -/
  | handshake (p : Client.ClientProg Int) (wrote : Bool)
  /-- At the first splice function of a round; the flags are whether it has sent something before a
  wait, and whether a wait in it has failed. -/
  | forward (resF resB : Int) (sent failed : Bool)
  /-- At the second one; the flag is whether a wait in it has failed. -/
  | backward (resF resB : Int) (failed : Bool)
  /-- In the yielder at the end of a round. -/
  | round (resF resB : Int)
  /-- In the second loop of `hev_socks5_session_tcp_splice`. -/
  | drain
  | ended

namespace Point

def isEnded : Point → Bool
  | ended => true
  | _ => false

/-- What a handshake makes of a call that fails: a read has not got all of its bytes, and a write
counts if it has written something. -/
def giveUp : Client.ClientProg Int → Bool → Client.ClientProg Int
  | .recv _ k, _ => k none
  | .send _ k, wrote => k wrote
  | p, _ => p

/-- Where the first splice loop of a session ends. -/
def afterLoop (type : SocksType) : Point :=
  if type = .tcp then drain else ended

/-- Where a task goes on whose wait has failed. -/
def failed (type : SocksType) : Point → Point
  | connect => ended
  | handshake p wrote => handshake (giveUp p wrote) false
  | forward resF resB sent _ => forward resF resB sent true
  | backward resF resB _ => backward resF resB true
  | round _ _ => afterLoop type
  | drain => ended
  | p => p

/-- Where a task goes on whose wait was successful: the call is tried again, and after a round there
is another one. -/
def passed : Point → Point
  | round resF resB => forward resF resB false false
  | p => p

/-- Whether a failed wait does not stop the task here: a write of the handshake that has written
something counts, and a splice function is followed by the other one. -/
def survives : Point → Bool
  | handshake (.send _ _) wrote => wrote
  | forward _ _ _ _ => true
  | backward _ _ _ => true
  | _ => false

/-- Whether the yielder is the one of the UDP relay, which looks at the control connection first. -/
def checksControl : Point → Bool
  | forward _ _ _ _ => true
  | backward _ _ _ => true
  | round _ _ => true
  | _ => false

end Point

/-- What has happened since `hev_socks5_session_terminate` was first called. -/
structure Since where
  /-- The yielder has been called. -/
  yielded : Bool
  /-- One of these calls was a wait for I/O and was successful. -/
  passed : Bool
  /-- The session has gone on after one of these calls that was a `HEV_TASK_YIELD` or failed. -/
  survived : Bool
  /-- Data has been relayed after one of these calls. -/
  relayed : Bool
deriving DecidableEq, Repr

/-- The task of a session. -/
structure SessionTask where
  point : Point
  /-- Where the task pauses, `none` if it runs. -/
  pause : Option Pause
  task : TaskState
  /-- `self->timeout`. -/
  timeout : Int
  since : Option Since

namespace SessionTask

/-- The answer of the next call that the task makes. -/
inductive Answer where
  | ok
  | fail
  /-- It would block, perhaps after a part of what it sends has gone out. -/
  | block (moved : Bool)
  /-- It waits for the resolver or a mutex. -/
  | lock
  | bytes (bs : List Byte)
  | wrote (n : ℕ)
  | spliced (r : Spliced)

/-- What can happen next. -/
inductive Step where
  /-- `hev_task_run`. -/
  | start
  | terminate
  /-- The task is woken up by the reactor, a timer or a handler. -/
  | wakeup
  /-- The task goes on after a pause; `left` is the result of `hev_task_sleep`. -/
  | resume (left : ℕ)
  /-- The task runs to its next call.  If the yielder is called, `closed` is whether it finds the
  control connection of a UDP session closed. -/
  | run (a : Answer) (closed : Bool)

/-- A new session with its task. -/
def init : SessionTask where
  point := .start
  pause := none
  task := .stopped
  timeout := -1
  since := none

/-- `hev_socks5_session_terminate`. -/
def terminate (s : SessionTask) : Option SessionTask := do
  let task ← s.task.wakeup
  pure { s with
    task := task
    timeout := 0
    since := some (s.since.getD ⟨false, false, false, false⟩) }

/-- The yielder returns `-1`. -/
def failWait (c : Session) (s : SessionTask) : SessionTask :=
  { s with
    point := s.point.failed c.type
    pause := none
    since := s.since.map (fun g =>
      { g with survived := g.survived || (g.yielded && s.point.survives) }) }

/-- The pause `p` ends without a failure. -/
def passWait (s : SessionTask) (p : Pause) : SessionTask :=
  { s with
    point := s.point.passed
    pause := none
    since := s.since.map (fun g => { g with
      passed := g.passed || (g.yielded && (p = .waitio || p = .sleep))
      survived := g.survived || (g.yielded && p = .yield) }) }

/-- The task pauses. -/
def stop (s : SessionTask) (p : Pause) : SessionTask :=
  { s with pause := some p, task := p.taskState }

/-- The yielder is called. -/
def noteYield (s : SessionTask) : SessionTask :=
  { s with since := s.since.map (fun g => { g with yielded := true }) }

/-- A call of the yielder: `hev_socks5_task_io_yielder`, behind the check of the control connection
in the relay of a UDP session. -/
def callYielder (c : Session) (s : SessionTask) (type : YieldType) (closed : Bool) : SessionTask :=
  if c.type = .udpInUdp ∧ s.point.checksControl = true ∧ closed = true then
    failWait c { s.noteYield with timeout := 0 }
  else
    match yielder type s.timeout with
    | none => s.noteYield.failWait c
    | some p => s.noteYield.stop p

/-- Data is relayed if `moved`. -/
def relay (s : SessionTask) (moved : Bool) : SessionTask :=
  { s with since := s.since.map (fun g =>
      { g with relayed := g.relayed || (g.yielded && moved) }) }

/-- The end of `hev_socks5_client_handshake` with the result `r`.  A TCP session without a peer or
a buffer does not relay. -/
def endHandshake (c : Session) (s : SessionTask) (r : Int) : Answer → Option SessionTask
  | .ok => some { s with
      timeout := if c.type = .tcp then s.timeout else c.udpTimeout
      point := if r < 0 then .ended else .forward 1 1 false false }
  | .fail => if c.type = .tcp then some { s with point := .ended } else none
  | _ => none

/-- A call of the handshake. -/
def handshakeCall (c : Session) (s : SessionTask) (closed : Bool) :
    Client.ClientProg Int → Bool → Answer → Option SessionTask
  | .ret r, _, a => s.endHandshake c r a
  | .act _ k, _, .ok => some { s with point := .handshake k false }
  | .act _ _, _, .lock => some (s.stop .other)
  | .recv n k, _, .bytes bs =>
      if bs.length = n then some { s with point := .handshake (k (some bs)) false }
      else if bs ≠ [] ∧ bs.length < n then
        some { s with
          point := .handshake (.recv (n - bs.length) (fun r => k (r.map (bs ++ ·)))) false }
      else none
  | .recv _ k, _, .fail => some { s with point := .handshake (k none) false }
  | .recv _ _, _, .block false => some (s.callYielder c .waitio closed)
  | .send bs k, _, .wrote n =>
      if n = bs.length then some { s with point := .handshake (k true) false }
      else if 0 < n ∧ n < bs.length then some { s with point := .handshake (.send (bs.drop n) k) true }
      else none
  | .send _ k, wrote, .fail => some { s with point := .handshake (k wrote) false }
  | .send _ _, _, .block false => some (s.callYielder c .waitio closed)
  | _, _, _ => none

/-- The first splice function of a round, unless it has failed before.  What
`hev_socks5_session_udp_fwd_f` has sent before a wait counts for its result, also when the wait fails
and it returns without sending more. -/
def forwardCall (c : Session) (s : SessionTask) (closed : Bool) (resF resB : Int)
    (sent failed : Bool) : Answer → Option SessionTask
  | .ok => if resF < 0 then some { s with point := .backward resF resB false } else none
  | .spliced r =>
      if resF < 0 ∨ failed then none
      else some { s.relay r.relays with point := .backward (if sent then 1 else r.res) resB false }
  | .block moved =>
      if resF < 0 ∨ failed ∨ c.type = .tcp then none
      else some (callYielder c { s.relay moved with
        point := .forward resF resB (sent || moved) false } .waitio closed)
  | .fail =>
      if failed then some { s with point := .backward (if sent then 1 else -1) resB false } else none
  | .lock => if resF < 0 ∨ c.type ≠ .tcp then none else some (s.stop .other)
  | _ => none

/-- The end of a round. -/
def endRound (c : Session) (s : SessionTask) (closed : Bool) (resF resB : Int) : SessionTask :=
  match roundType resF resB with
  | none => { s with point := .afterLoop c.type }
  | some type => callYielder c { s with point := .round resF resB } type closed

/-- The second splice function of a round, unless it has failed before.  After a failed wait
`hev_socks5_session_udp_fwd_b` passes on what it has. -/
def backwardCall (c : Session) (s : SessionTask) (closed : Bool) (resF resB : Int) (failed : Bool) :
    Answer → Option SessionTask
  | .ok => if resB < 0 then some (s.endRound c closed resF resB) else none
  | .spliced r => if resB < 0 then none else some ((s.relay r.relays).endRound c closed resF r.res)
  | .block false =>
      if resB < 0 ∨ failed ∨ c.type = .tcp then none else some (s.callYielder c .waitio closed)
  | .lock => if resB < 0 then none else some (s.stop .other)
  | _ => none

/-- The task runs on from a point. -/
def runOn (c : Session) (s : SessionTask) (closed : Bool) : Point → Answer → Option SessionTask
  | .start, .ok => some { s with point := .resolve, timeout := c.connectTimeout }
  | .resolve, .ok => some { s with point := .connect }
  | .resolve, .fail => some { s with point := .ended }
  | .resolve, .lock => some (s.stop .other)
  | .connect, .ok => some { s with
      point := .handshake (c.client.handshake c.env c.pipeline) false
      timeout := c.tcpTimeout }
  | .connect, .fail => some { s with point := .ended }
  | .connect, .block false => some (s.callYielder c .waitio closed)
  | .handshake p wrote, a => s.handshakeCall c closed p wrote a
  | .forward resF resB sent failed, a => s.forwardCall c closed resF resB sent failed a
  | .backward resF resB failed, a => s.backwardCall c closed resF resB failed a
  | .drain, .ok => some { s with point := .ended }
  | .drain, .block false => some (s.callYielder c .waitio closed)
  | _, _ => none

/-- One step, `none` if it cannot happen or aborts the program.  A task that has ended is gone. -/
def step (c : Session) (s : SessionTask) (x : Step) : Option SessionTask :=
  if s.point.isEnded then none
  else
    match x with
    | .start => if s.task = .stopped then some { s with task := .running } else none
    | .terminate => s.terminate
    | .wakeup => s.task.wakeup.map (fun task => { s with task := task })
    | .resume left =>
        match s.pause, s.task with
        | some p, .running => some (if p.passes left then s.passWait p else s.failWait c)
        | _, _ => none
    | .run a closed =>
        if s.pause = none ∧ s.task = .running then s.runOn c closed s.point a else none

end SessionTask

end HevTunnel
