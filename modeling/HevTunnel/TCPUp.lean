import HevTunnel.CString
import HevTunnel.Transition
import Mathlib.Algebra.BigOperators.Group.List.Basic

/-! # From the client to the SOCKS server: `tcp_splice_f`

lwIP passes the client's bytes to a TCP session as chains of packet buffers (`tcp_recv_handler`).
The session queues them in one chain, writes up to 64 buffers at once to its SOCKS socket, takes off
the chain what has been written and opens lwIP's window by as much (`tcp_recved`).

`tcp_splice_f` gives way only where it waits for the mutex, between the write and the release, so a
call has the two sections `writeSection` and `freeSection`, and chains are appended between them.
Of lwIP we assume that it delivers nothing behind the end of the stream, and never more than
`TCP_WND` bytes that have not been released by `tcp_recved`.

`upstream_sound` is the result: along every run the bytes come through in order, no 16-bit length is ever
cut, no chain is refused, and the socket is shut down only when everything is written. -/

namespace HevTunnel

/-! ### Chains of packet buffers -/

/-- `struct pbuf` with the data it points to; a chain is a list, with `NULL` as the empty one. -/
structure Pbuf where
  payload : List Byte
  /-- `tot_len`, of 16 bits. -/
  totLen : ℕ
deriving DecidableEq

namespace Pbuf

def len (p : Pbuf) : ℕ := p.payload.length

/-- The data of a chain. -/
def bytes (q : List Pbuf) : List Byte := q.flatMap payload

/-- Every `tot_len` is the length of the chain from there on. -/
def Exact : List Pbuf → Prop
  | [] => True
  | p :: ps => p.totLen = (bytes (p :: ps)).length ∧ Exact ps

/-- The chain of data in segments, as lwIP builds it. -/
def chain : List (List Byte) → List Pbuf
  | [] => []
  | seg :: segs => ⟨seg, (seg :: segs).flatten.length % 2 ^ 16⟩ :: chain segs

/-- `pbuf_cat`. -/
def cat (h t : List Pbuf) : List Pbuf :=
  match t with
  | [] => h
  | p :: ps => h.map (fun q => { q with totLen := (q.totLen + p.totLen) % 2 ^ 16 }) ++ p :: ps

/-- `pbuf_free_header`, for a length of 16 bits. -/
def freeHeader : List Pbuf → ℕ → List Pbuf
  | [], _ => []
  | p :: ps, size =>
      if size = 0 then p :: ps
      else if p.len ≤ size then freeHeader ps (size - p.len)
      -- `pbuf_remove_header`
      else ⟨p.payload.drop size, (p.totLen + 2 ^ 16 - size) % 2 ^ 16⟩ :: ps

@[simp]
theorem bytes_cons (p : Pbuf) (ps : List Pbuf) : bytes (p :: ps) = p.payload ++ bytes ps := rfl

@[simp]
theorem bytes_append (h t : List Pbuf) : bytes (h ++ t) = bytes h ++ bytes t :=
  List.flatMap_append

@[simp]
theorem bytes_chain : ∀ (segs : List (List Byte)), bytes (chain segs) = segs.flatten
  | [] => rfl
  | seg :: segs => by rw [chain, bytes_cons, bytes_chain, List.flatten_cons]

theorem bytes_cat (h t : List Pbuf) : bytes (cat h t) = bytes h ++ bytes t := by
  cases t with
  | nil => simp [cat, bytes]
  | cons p ps =>
      rw [cat, bytes_append]
      congr 1
      simp [bytes, List.flatMap_map]

theorem bytes_freeHeader (q : List Pbuf) (size : ℕ) :
    bytes (freeHeader q size) = (bytes q).drop size := by
  induction q generalizing size with
  | nil => simp [freeHeader, bytes]
  | cons p ps ih =>
      unfold freeHeader
      split_ifs with hz hle
      · rw [hz, List.drop_zero]
      · rw [ih, bytes_cons, List.drop_append, List.drop_of_length_le hle, List.nil_append]
        rfl
      · rw [bytes_cons, bytes_cons, List.drop_append_of_le_length (Nat.le_of_not_le hle)]

theorem exact_chain : ∀ {segs : List (List Byte)}, segs.flatten.length < 2 ^ 16 →
    Exact (chain segs)
  | [], _ => trivial
  | seg :: segs, h => by
      have hsegs : segs.flatten.length < 2 ^ 16 := by
        rw [List.flatten_cons, List.length_append] at h
        omega
      refine ⟨?_, exact_chain hsegs⟩
      show (seg :: segs).flatten.length % 2 ^ 16 = _
      rw [Nat.mod_eq_of_lt h, bytes_cons, bytes_chain, List.flatten_cons]

/-- As long as the whole chain is shorter than 64 KiB, appending to it cuts no length. -/
theorem exact_cat {h t : List Pbuf} (hh : Exact h) (ht : Exact t)
    (hlt : (bytes h).length + (bytes t).length < 2 ^ 16) : Exact (cat h t) := by
  cases t with
  | nil => exact hh
  | cons p ps =>
      induction h with
      | nil => exact ht
      | cons q qs ih =>
          have hqs : Exact (cat qs (p :: ps)) := by
            apply ih hh.2
            rw [bytes_cons, List.length_append] at hlt
            omega
          refine ⟨?_, hqs⟩
          show (q.totLen + p.totLen) % 2 ^ 16 = (q.payload ++ bytes (cat qs (p :: ps))).length
          rw [hh.1, ht.1, Nat.mod_eq_of_lt hlt, bytes_cat, bytes_cons q, ← List.append_assoc,
            ← List.length_append]

theorem exact_freeHeader {q : List Pbuf} {size : ℕ} (h : Exact q) (hlt : (bytes q).length < 2 ^ 16) :
    Exact (freeHeader q size) := by
  induction q generalizing size with
  | nil => trivial
  | cons p ps ih =>
      have hps : (bytes ps).length < 2 ^ 16 := by
        rw [bytes_cons, List.length_append] at hlt
        omega
      unfold freeHeader
      split_ifs with hz hle
      · exact h
      · exact ih h.2 hps
      · refine ⟨?_, h.2⟩
        have hlen : size < p.payload.length := Nat.lt_of_not_le hle
        have htot := h.1
        simp only [bytes_cons, List.length_append, List.length_drop] at hlt htot ⊢
        omega

end Pbuf

/-! ### The session -/

/-- `TCP_WND`, which is also `TCP_WND_MAX`. -/
def tcpWnd : ℕ := 8 * 8191

/-- What `writev` returns; `stop` is an error, or zero bytes written. -/
inductive Writev where
  | wrote (n : ℕ)
  | again
  | stop

/-- A session with its queue, and both ends of its upstream. -/
structure TcpUp where
  queue : List Pbuf
  pcbEof : Bool
  /-- Whether `self->pcb` is set. -/
  hasPcb : Bool
  /-- `res_f` of the splice loop. -/
  resF : Int
  /-- The number of bytes written, while `tcp_splice_f` waits for the mutex. -/
  waiting : Option ℕ
  delivered : List Byte
  written : List Byte
  /-- The counts passed to `pbuf_free_header` and to `tcp_recved`. -/
  freed : List ℕ
  recved : List ℕ
  /-- Whether `tcp_recv_handler` has returned `ERR_WOULDBLOCK`. -/
  refused : Bool
  /-- Whether the SOCKS socket has been shut down for writing. -/
  shut : Bool

namespace TcpUp

/-- A new session. -/
def init : TcpUp where
  queue := []
  pcbEof := false
  hasPcb := true
  resF := 1
  waiting := none
  delivered := []
  written := []
  freed := []
  recved := []
  refused := false
  shut := false

/-- What lwIP takes for released; the parameter of `tcp_recved` is a `u16_t`. -/
def released (s : TcpUp) : ℕ := (s.recved.map (· % 2 ^ 16)).sum

/-- `tcp_recv_handler` with a chain of data. -/
def recvData (s : TcpUp) (segs : List (List Byte)) : Option TcpUp :=
  if s.hasPcb ∧ s.pcbEof = false ∧ segs ≠ [] ∧
      s.delivered.length + segs.flatten.length ≤ s.released + tcpWnd then
    match s.queue with
    | [] => some { s with queue := Pbuf.chain segs, delivered := s.delivered ++ segs.flatten }
    | p :: ps =>
        if p.totLen > tcpWnd then some { s with refused := true }
        else some { s with
          queue := Pbuf.cat (p :: ps) (Pbuf.chain segs)
          delivered := s.delivered ++ segs.flatten }
  else none

/-- `tcp_recv_handler` with `NULL`. -/
def recvEof (s : TcpUp) : Option TcpUp :=
  if s.hasPcb ∧ s.pcbEof = false then some { s with pcbEof := true } else none

/-- `tcp_err_handler`; lwIP has freed the connection. -/
def err (s : TcpUp) : Option TcpUp :=
  if s.hasPcb then some { s with hasPcb := false } else none

/-- `tcp_splice_f` up to the mutex.  The splice loop calls it as long as its result is not
negative. -/
def writeSection (s : TcpUp) (r : Writev) : Option TcpUp :=
  if s.resF < 0 ∨ s.waiting ≠ none then none
  else if s.queue = [] then
    if s.pcbEof then some { s with resF := -1, shut := true }
    else some { s with resF := 0 }
  else
    let iov := s.queue.take 64
    match r with
    | .wrote n =>
        if n = 0 ∨ (Pbuf.bytes iov).length < n then none
        else some { s with
          written := s.written ++ (Pbuf.bytes iov).take n
          waiting := some n }
    | .again => some { s with resF := 0 }
    | .stop => some { s with resF := -1 }

/-- `tcp_splice_f` from the mutex on; the parameter of `pbuf_free_header` is a `u16_t`. -/
def freeSection (s : TcpUp) : Option TcpUp :=
  match s.waiting with
  | none => none
  | some n => some { s with
      queue := Pbuf.freeHeader s.queue (n % 2 ^ 16)
      freed := s.freed ++ [n]
      recved := if s.hasPcb then s.recved ++ [n] else s.recved
      resF := 1
      waiting := none }

inductive Step where
  | recvData (segs : List (List Byte))
  | recvEof
  | err
  | write (r : Writev)
  | free

/-- One step, `none` if it cannot be taken. -/
def step (s : TcpUp) : Step → Option TcpUp
  | .recvData segs => s.recvData segs
  | .recvEof => s.recvEof
  | .err => s.err
  | .write r => s.writeSection r
  | .free => s.freeSection

def run (s : TcpUp) (xs : List Step) : Option TcpUp := runSteps step s xs

/-! ### The invariant -/

/-- The number of bytes that are written and still queued. -/
def pending (s : TcpUp) : ℕ := s.waiting.getD 0

structure Inv (s : TcpUp) : Prop where
  exact_queue : Pbuf.Exact s.queue
  stream_eq : s.written ++ (Pbuf.bytes s.queue).drop s.pending = s.delivered
  pending_le : s.pending ≤ (Pbuf.bytes s.queue).length
  window : (Pbuf.bytes s.queue).length ≤ tcpWnd
  counts : (∀ n ∈ s.freed, n < 2 ^ 16) ∧ ∀ n ∈ s.recved, n < 2 ^ 16
  recved_eq : s.hasPcb = true → s.recved.sum + s.pending = s.written.length
  not_refused : s.refused = false
  shut_eq : s.shut = true → s.pcbEof = true ∧ s.queue = [] ∧ s.waiting = none ∧ s.resF < 0

theorem init_inv : init.Inv where
  exact_queue := trivial
  stream_eq := rfl
  pending_le := Nat.le_refl _
  window := Nat.zero_le _
  counts := by simp [init]
  recved_eq := fun _ => rfl
  not_refused := rfl
  shut_eq := by simp [init]

namespace Inv
variable {s s' : TcpUp} (h : s.Inv)
include h

theorem bytes_lt : (Pbuf.bytes s.queue).length < 2 ^ 16 := by
  have := h.window
  unfold tcpWnd at this
  omega

theorem released_eq : s.released = s.recved.sum := by
  unfold released
  congr 1
  conv_rhs => rw [← List.map_id s.recved]
  exact List.map_congr_left (fun n hn => Nat.mod_eq_of_lt (h.counts.2 n hn))

/-- While the connection is there, what is queued has been delivered and not released. -/
theorem length_delivered (hpcb : s.hasPcb = true) :
    s.delivered.length = s.released + (Pbuf.bytes s.queue).length := by
  have hstream := congrArg List.length h.stream_eq
  have hle := h.pending_le
  rw [List.length_append, List.length_drop, ← h.recved_eq hpcb] at hstream
  rw [h.released_eq]
  omega

/-- A chain behind the queue. -/
theorem append {segs : List (List Byte)} {queue : List Pbuf} (heof : s.pcbEof = false)
    (hqueue : queue = Pbuf.cat s.queue (Pbuf.chain segs))
    (hwnd : (Pbuf.bytes s.queue).length + segs.flatten.length ≤ tcpWnd) :
    Inv { s with queue := queue, delivered := s.delivered ++ segs.flatten } := by
  have hbytes : Pbuf.bytes queue = Pbuf.bytes s.queue ++ segs.flatten := by
    rw [hqueue, Pbuf.bytes_cat, Pbuf.bytes_chain]
  have hlt : (Pbuf.bytes s.queue).length + segs.flatten.length < 2 ^ 16 := by
    unfold tcpWnd at hwnd
    omega
  refine { h with
    exact_queue := ?_, stream_eq := ?_, pending_le := ?_, window := ?_, shut_eq := ?_ }
  · show Pbuf.Exact queue
    rw [hqueue]
    exact Pbuf.exact_cat h.exact_queue (Pbuf.exact_chain (by omega)) (by simpa using hlt)
  · show s.written ++ (Pbuf.bytes queue).drop s.pending = s.delivered ++ segs.flatten
    rw [hbytes, List.drop_append_of_le_length h.pending_le, ← List.append_assoc, h.stream_eq]
  · show s.pending ≤ (Pbuf.bytes queue).length
    rw [hbytes, List.length_append]
    exact h.pending_le.trans (Nat.le_add_right _ _)
  · show (Pbuf.bytes queue).length ≤ tcpWnd
    rw [hbytes, List.length_append]
    exact hwnd
  · intro hshut
    have := (h.shut_eq hshut).1
    rw [heof] at this
    cases this

theorem recvData {segs : List (List Byte)} (hs : s.recvData segs = some s') : s'.Inv := by
  unfold TcpUp.recvData at hs
  split_ifs at hs with hcall
  obtain ⟨hpcb, heof, -, hwnd⟩ := hcall
  rw [h.length_delivered hpcb, Nat.add_assoc, Nat.add_le_add_iff_left] at hwnd
  cases hq : s.queue with
  | nil =>
      rw [hq] at hs
      cases hs
      apply h.append heof _ hwnd
      cases segs <;> simp [hq, Pbuf.cat, Pbuf.chain]
  | cons p ps =>
      -- the queue is no longer than the window, and `tot_len` says so
      have hle : ¬ p.totLen > tcpWnd := by
        have hhead := h.exact_queue
        have hlen := h.window
        rw [hq] at hhead hlen
        rw [hhead.1]
        omega
      simp only [hq, if_neg hle] at hs
      cases hs
      exact h.append heof (by rw [hq]) hwnd

theorem writeSection {r : Writev} (hs : s.writeSection r = some s') : s'.Inv := by
  simp only [TcpUp.writeSection] at hs
  split_ifs at hs with hcall hq heof
  all_goals
    rw [not_or, ne_eq, not_not] at hcall
    have hpending : s.pending = 0 := by rw [pending, hcall.2]; rfl
  · cases hs
    exact { h with shut_eq := fun _ => ⟨heof, hq, hcall.2, (by decide : (-1 : Int) < 0)⟩ }
  · cases hs
    refine { h with shut_eq := fun hshut => ?_ }
    exact absurd (h.shut_eq hshut).1 heof
  · have hshut : s.shut = true → False := fun hshut => hq (h.shut_eq hshut).2.1
    cases r with
    | wrote n =>
        simp only at hs
        split_ifs at hs with hn
        rw [not_or, not_lt] at hn
        -- the scatter list is the head of the queue
        have hhead : Pbuf.bytes s.queue
            = Pbuf.bytes (s.queue.take 64) ++ Pbuf.bytes (s.queue.drop 64) := by
          rw [← Pbuf.bytes_append, List.take_append_drop]
        have htake : (Pbuf.bytes (s.queue.take 64)).take n = (Pbuf.bytes s.queue).take n := by
          rw [hhead, List.take_append_of_le_length hn.2]
        have hle : n ≤ (Pbuf.bytes s.queue).length := by
          rw [hhead, List.length_append]
          omega
        have hstream := h.stream_eq
        rw [hpending, List.drop_zero] at hstream
        cases hs
        refine { h with
          stream_eq := ?_, pending_le := hle, recved_eq := ?_, shut_eq := fun h' => (hshut h').elim }
        · show s.written ++ _ ++ (Pbuf.bytes s.queue).drop n = s.delivered
          rw [htake, List.append_assoc, List.take_append_drop, hstream]
        · intro hpcb
          have := h.recved_eq hpcb
          show s.recved.sum + n = _
          rw [htake, List.length_append, List.length_take_of_le hle]
          omega
    | again =>
        cases hs
        exact { h with shut_eq := fun h' => (hshut h').elim }
    | stop =>
        cases hs
        exact { h with shut_eq := fun h' => (hshut h').elim }

theorem freeSection (hs : s.freeSection = some s') : s'.Inv := by
  cases hw : s.waiting with
  | none => simp [TcpUp.freeSection, hw] at hs
  | some n =>
      have hpending : s.pending = n := by rw [pending, hw]; rfl
      have hle := h.pending_le
      have hstream := h.stream_eq
      rw [hpending] at hle hstream
      have hn : n < 2 ^ 16 := hle.trans_lt h.bytes_lt
      have hbytes := Pbuf.bytes_freeHeader s.queue n
      simp only [TcpUp.freeSection, hw, Nat.mod_eq_of_lt hn] at hs
      cases hs
      refine ⟨Pbuf.exact_freeHeader h.exact_queue h.bytes_lt, ?_, Nat.zero_le _, ?_, ⟨?_, ?_⟩, ?_,
        h.not_refused, ?_⟩
      · show s.written ++ (Pbuf.bytes (Pbuf.freeHeader s.queue n)).drop 0 = s.delivered
        rw [hbytes, List.drop_zero, hstream]
      · show (Pbuf.bytes (Pbuf.freeHeader s.queue n)).length ≤ tcpWnd
        rw [hbytes, List.length_drop]
        exact (Nat.sub_le _ _).trans h.window
      · intro m hm
        rw [List.mem_append, List.mem_singleton] at hm
        obtain hm | rfl := hm
        · exact h.counts.1 m hm
        · exact hn
      · intro m hm
        simp only at hm
        split_ifs at hm
        · rw [List.mem_append, List.mem_singleton] at hm
          obtain hm | rfl := hm
          · exact h.counts.2 m hm
          · exact hn
        · exact h.counts.2 m hm
      · intro hpcb
        have hsum := h.recved_eq hpcb
        rw [hpending] at hsum
        show (if s.hasPcb = true then s.recved ++ [n] else s.recved).sum + 0 = s.written.length
        rw [if_pos hpcb, List.sum_append, List.sum_singleton]
        exact hsum
      · intro hshut
        have := (h.shut_eq hshut).2.2.1
        rw [hw] at this
        cases this

theorem step {x : Step} (hs : s.step x = some s') : s'.Inv := by
  cases x with
  | recvData segs => exact h.recvData hs
  | recvEof =>
      simp only [TcpUp.step, recvEof] at hs
      split_ifs at hs
      cases hs
      exact { h with shut_eq := fun hshut => ⟨rfl, (h.shut_eq hshut).2⟩ }
  | err =>
      simp only [TcpUp.step, TcpUp.err] at hs
      split_ifs at hs
      cases hs
      exact { h with recved_eq := by simp }
  | write r => exact h.writeSection hs
  | free => exact h.freeSection hs

end Inv

/-! ### The result -/

/-- The upstream of a session in a state it reaches; a call of `tcp_splice_f` is completed when it
does not wait. -/
structure Sound (s : TcpUp) : Prop where
  /-- The bytes written, followed by the queued ones, are the bytes delivered. -/
  stream : s.waiting = none → s.written ++ Pbuf.bytes s.queue = s.delivered
  /-- No `tot_len` of the queue has wrapped. -/
  totLen : Pbuf.Exact s.queue
  accepted : s.refused = false
  /-- The counts fit into 16 bits. -/
  counts : (∀ n ∈ s.freed, n < 2 ^ 16) ∧ ∀ n ∈ s.recved, n < 2 ^ 16
  /-- The window is opened by what has been written. -/
  recved : s.hasPcb = true → s.waiting = none → s.recved.sum = s.written.length
  /-- The socket is shut down behind the last byte. -/
  shutdown : s.shut = true → s.pcbEof = true ∧ s.written = s.delivered

theorem Inv.sound {s : TcpUp} (h : s.Inv) : s.Sound where
  stream := by
    intro hw
    have := h.stream_eq
    rwa [pending, hw, Option.getD_none, List.drop_zero] at this
  totLen := h.exact_queue
  accepted := h.not_refused
  counts := h.counts
  recved := by
    intro hpcb hw
    have := h.recved_eq hpcb
    rwa [pending, hw, Option.getD_none, Nat.add_zero] at this
  shutdown := by
    intro hshut
    obtain ⟨heof, hq, hw, -⟩ := h.shut_eq hshut
    have := h.stream_eq
    rw [hq, Pbuf.bytes, List.flatMap_nil, List.drop_nil, List.append_nil] at this
    exact ⟨heof, this⟩

/-- Along every run of a session. -/
theorem upstream_sound (xs : List Step) (s : TcpUp) (hs : init.run xs = some s) : s.Sound :=
  (runSteps_invariant Inv (fun h hstep => h.step hstep) init_inv hs).sound

/-- A chain that arrives while the first write waits for the mutex, and a write that ends inside a
buffer. -/
def shortWrite : List Step :=
  [.recvData [[1, 2], [], [3, 4]], .write (.wrote 3), .recvData [[5]], .recvEof, .free,
    .write .again, .write (.wrote 2), .free, .write .stop]

theorem shortWrite_sound : ∃ s, init.run shortWrite = some s ∧
    s.written = [1, 2, 3, 4, 5] ∧ s.recved = [3, 2] ∧ s.shut = true ∧ s.Sound := by
  have hrun : (init.run shortWrite).map (fun s => (s.written, s.recved, s.shut))
      = some ([1, 2, 3, 4, 5], [3, 2], true) := by decide +kernel
  rw [Option.map_eq_some_iff] at hrun
  obtain ⟨s, hs, hout⟩ := hrun
  simp only [Prod.mk.injEq] at hout
  obtain ⟨hwritten, hrecved, hshut⟩ := hout
  exact ⟨s, hs, hwritten, hrecved, hshut, upstream_sound shortWrite s hs⟩

end TcpUp

end HevTunnel
