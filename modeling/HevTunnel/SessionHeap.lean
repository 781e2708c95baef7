import HevTunnel.HevList
import HevTunnel.SessionTask

/-! # The sessions of a tunnel in memory

`session_set` is a list through the nodes that the sessions of `hev-socks5-tunnel.c` contain.
`SessionHeap` is the list with its links, the counter and the sessions, each with its task and with
the place that its task has reached.

`SessionHeap.exec` is what the program does at an event: a new TCP or UDP session, a task that pauses,
yields in the splicer or ends, the stop event.  An event happens when the place of the task allows it
(`SessionEvent.Possible`); no event looks whether a node is in the list. -/

namespace HevTunnel

variable {α : Type}

/-- Where the task of a session is. -/
inductive SessionStage where
  /-- In `hev_socks5_session_run`, or not there yet. -/
  | running
  /-- Behind `hev_socks5_tunnel_delete_session`, in `hev_object_unref`. -/
  | leaving
deriving DecidableEq, Repr

/-- A session, with the state of its task. -/
structure SessionObject where
  /-- `hev_socks5_session_terminate` has been called. -/
  told : Bool
  task : TaskState
  stage : SessionStage
deriving DecidableEq, Repr

/-- The sessions of a tunnel in memory; a node stands for the session that contains it. -/
structure SessionHeap (α : Type) where
  /-- `session_set`, with the links of all nodes. -/
  set : LinkedList α
  /-- `session_count`. -/
  count : Int
  /-- `run`. -/
  run : Bool
  /-- The session of a node, `none` if there is none in this memory. -/
  object : α → Option SessionObject
  /-- The calls on `session_set` so far, which the code does not record. -/
  calls : List (ListCall α)

/-- What can happen to the sessions. -/
inductive SessionEvent (α : Type) where
  /-- `hev_socks5_tunnel_run` sets `run`. -/
  | start
  /-- `tcp_accept_handler`, with the memory for a session and whether there is memory for a task. -/
  | tcpAccept (err : Int) (alloc : Option α) (task : Bool)
  /-- `udp_recv_handler`; `dns` is whether the datagram is for the mapped DNS. -/
  | udpRecv (dns : Bool) (alloc : Option α) (task : Bool)
  /-- The task of a session gives up the processor. -/
  | pause (x : α) (p : Pause)
  /-- The task of a session is woken up. -/
  | wakeup (x : α)
  /-- A callback of the session tells it to terminate. -/
  | terminate (x : α)
  /-- The yielder of the splicer has the processor again. -/
  | yielded (x : α)
  /-- `hev_socks5_session_run` has returned. -/
  | ended (x : α)
  /-- The session has been destroyed and its task has ended. -/
  | freed (x : α)
  /-- The stop event reaches `event_task_entry`. -/
  | stop
deriving DecidableEq, Repr

namespace SessionHeap

/-- The tunnel before its first run; the memory of the nodes is arbitrary. -/
def init (node : α → ListNode α) : SessionHeap α := ⟨.empty node, 0, false, fun _ => none, []⟩

/-- The session is in the hands of a task that has not left `hev_socks5_session_run`. -/
def Live (h : SessionHeap α) (x : α) : Prop :=
  (h.object x).map SessionObject.stage = some .running

/-- The task of the session has been run. -/
def Started (h : SessionHeap α) (x : α) : Prop := ∃ o ∈ h.object x, o.task ≠ .stopped

section operations
variable [DecidableEq α]

/-- A call on `session_set`. -/
def call (h : SessionHeap α) (c : ListCall α) : SessionHeap α :=
  { h with set := c.exec h.set, calls := h.calls ++ [c] }

def setObject (h : SessionHeap α) (x : α) (o : Option SessionObject) : SessionHeap α :=
  { h with object := Function.update h.object x o }

def setTask (h : SessionHeap α) (x : α) (task : TaskState) : SessionHeap α :=
  h.setObject x ((h.object x).map fun o => { o with task := task })

def setStage (h : SessionHeap α) (x : α) (stage : SessionStage) : SessionHeap α :=
  h.setObject x ((h.object x).map fun o => { o with stage := stage })

/-- `hev_socks5_session_terminate`; `none` if there is no session, or `hev_task_wakeup` aborts. -/
def terminate (h : SessionHeap α) (x : α) : Option (SessionHeap α) := do
  let o ← h.object x
  let task ← o.task.wakeup
  pure (h.setObject x (some { o with told := true, task := task }))

/-- `hev_socks5_tunnel_insert_session`. -/
def insertSession (max : Int) (h : SessionHeap α) (x : α) : Option (SessionHeap α) :=
  let h := h.call (.addTail x)
  let h := { h with count := h.count + 1 }
  if max = 0 ∨ h.count < max then some h
  else h.set.head.bind h.terminate

/-- `hev_socks5_tunnel_delete_session`. -/
def deleteSession (h : SessionHeap α) (x : α) : SessionHeap α :=
  let h := h.call (.del x)
  { h with count := h.count - 1 }

/-- `hev_socks5_tunnel_update_session`. -/
def updateSession (max : Int) (h : SessionHeap α) (x : α) : SessionHeap α :=
  if max = 0 then h else (h.call (.del x)).call (.addTail x)

/-- `hev_socks5_session_tcp_new` and `hev_socks5_session_udp_new` with the memory that
`hev_malloc0` returns. -/
def newSession (h : SessionHeap α) (x : α) : SessionHeap α :=
  { h with set := { h.set with node := Function.update h.set.node x ⟨none, none⟩ } }.setObject x
    (some ⟨false, .stopped, .running⟩)

/-- The two handlers from the new session on.  Without memory for a task the session is destroyed,
and it has not been in the list. -/
def openSession (max : Int) (h : SessionHeap α) (x : α) (task : Bool) : Option (SessionHeap α) :=
  let h := h.newSession x
  if task = false then some (h.setStage x .leaving)
  else do
    let h ← h.insertSession max x
    pure (h.setTask x .running)

/-- `tcp_accept_handler`.  `ERR_OK` is 0, `ERR_RST` is -14 and `ERR_MEM` is -1. -/
def tcpAcceptHandler (max : Int) (h : SessionHeap α) (err : Int) (alloc : Option α) (task : Bool) :
    Option (Int × SessionHeap α) :=
  if err ≠ 0 then some (err, h)
  else if h.run = false then some (-14, h)
  else
    match alloc with
    | none => some (-1, h)
    | some x => (h.openSession max x task).map fun h => (if task then 0 else -1, h)

/-- `udp_recv_handler`. -/
def udpRecvHandler (max : Int) (h : SessionHeap α) (dns : Bool) (alloc : Option α) (task : Bool) :
    Option (SessionHeap α) :=
  if h.run = false then some h
  else if dns then some h
  else
    match alloc with
    | none => some h
    | some x => h.openSession max x task

/-- `hev_socks5_session_task_entry` behind `hev_socks5_session_run`. -/
def sessionTaskEntry (h : SessionHeap α) (x : α) : SessionHeap α :=
  (h.deleteSession x).setStage x .leaving

/-- The loop of `event_task_entry`, with the nodes that it visits. -/
def stopLoop : ℕ → SessionHeap α → Option α → Option (SessionHeap α × List α)
  | 0, _, _ => none
  | _ + 1, h, none => some (h, [])
  | fuel + 1, h, some x => do
      let h ← h.terminate x
      let (h, visited) ← stopLoop fuel h (h.set.node x).next
      pure (h, x :: visited)

/-- `event_task_entry` from the stop event on. -/
def eventTaskEntry (fuel : ℕ) (h : SessionHeap α) : Option (SessionHeap α × List α) :=
  stopLoop fuel { h with run := false } h.set.head

/-- The program at an event; `none` if it aborts or follows a wrong pointer. -/
def exec (max : Int) (fuel : ℕ) (h : SessionHeap α) : SessionEvent α → Option (SessionHeap α)
  | .start => some { h with run := true }
  | .tcpAccept err alloc task => (h.tcpAcceptHandler max err alloc task).map Prod.snd
  | .udpRecv dns alloc task => h.udpRecvHandler max dns alloc task
  | .pause x p => some (h.setTask x p.taskState)
  | .wakeup x => some (h.setTask x .running)
  | .terminate x => h.terminate x
  | .yielded x => some (h.updateSession max x)
  | .ended x => some (h.sessionTaskEntry x)
  | .freed x => some (h.setObject x none)
  | .stop => (h.eventTaskEntry fuel).map Prod.fst

end operations

end SessionHeap

/-- When an event can happen.  The allocator returns memory that is not in use.  A session pauses and
is woken up while it has a task, it yields and ends in `hev_socks5_session_run`, and its memory is
given back behind it. -/
def SessionEvent.Possible (h : SessionHeap α) : SessionEvent α → Prop
  | .start => True
  | .tcpAccept _ alloc _ => ∀ x ∈ alloc, h.object x = none
  | .udpRecv _ alloc _ => ∀ x ∈ alloc, h.object x = none
  | .pause x _ => h.Started x
  | .wakeup x => h.Started x
  | .terminate x => h.Started x
  | .yielded x => h.Live x
  | .ended x => h.Live x
  | .freed x => (h.object x).map SessionObject.stage = some .leaving
  | .stop => True

instance (h : SessionHeap α) : (e : SessionEvent α) → Decidable (e.Possible h)
  | .start => inferInstanceAs (Decidable True)
  | .tcpAccept _ alloc _ => inferInstanceAs (Decidable (∀ x ∈ alloc, h.object x = none))
  | .udpRecv _ alloc _ => inferInstanceAs (Decidable (∀ x ∈ alloc, h.object x = none))
  | .pause x _ => inferInstanceAs (Decidable (∃ o ∈ h.object x, o.task ≠ .stopped))
  | .wakeup x => inferInstanceAs (Decidable (∃ o ∈ h.object x, o.task ≠ .stopped))
  | .terminate x => inferInstanceAs (Decidable (∃ o ∈ h.object x, o.task ≠ .stopped))
  | .yielded x => inferInstanceAs (Decidable ((h.object x).map SessionObject.stage = some .running))
  | .ended x => inferInstanceAs (Decidable ((h.object x).map SessionObject.stage = some .running))
  | .freed x => inferInstanceAs (Decidable ((h.object x).map SessionObject.stage = some .leaving))
  | .stop => inferInstanceAs (Decidable True)

end HevTunnel
