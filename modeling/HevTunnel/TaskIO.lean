import HevTunnel.CString
import Mathlib.Data.List.Count

/-! # Socket input and output of the task system

`hev-task-io-socket.c` wraps the system calls of a non-blocking socket: a call that would block
waits through the caller's yielder, and with `MSG_WAITALL` it goes on until the whole buffer is
done.

* What the coming system calls meet is a script of events, one for each call.  A script that runs
  out is a call that has not returned yet, `none`.
* `Sock` is a socket to read from: the bytes that the peer sends and the script.  `recv` and
  `recvmsg` read from it; `recv_waitall` is what a waiting read can return.
* `sendmsg` writes to a socket and returns the bytes it has written; `sendmsg_cases` is what it
  can return.
* `sendmmsg` sends datagrams, up to the first one that is too long for the kernel. -/

namespace HevTunnel

/-- What a system call on a socket meets. -/
inductive IoEvent where
  /-- Up to `n + 1` bytes can be moved. -/
  | data (n : ℕ)
  /-- It would block; a call that waits is woken up. -/
  | again
  /-- It would block; for a call that waits the yielder reports a timeout. -/
  | timeout
  /-- The peer has closed. -/
  | eof
  | err
deriving DecidableEq, Repr

namespace IoEvent

/-- The events of a connection that stays up and delivers. -/
def benign : IoEvent → Bool
  | data _ => true
  | again => true
  | _ => false

def isData : IoEvent → Bool
  | data _ => true
  | _ => false

theorem benign_cases {e : IoEvent} (h : e.benign = true) : e = again ∨ ∃ k, e = data k := by
  cases e with
  | data k => exact .inr ⟨k, rfl⟩
  | again => exact .inl rfl
  | _ => cases h

end IoEvent

/-- How often a script lets data through. -/
def dataCount (es : List IoEvent) : ℕ := es.countP IoEvent.isData

@[simp] theorem dataCount_data (k : ℕ) (es : List IoEvent) :
    dataCount (.data k :: es) = dataCount es + 1 :=
  List.countP_cons_of_pos rfl

@[simp] theorem dataCount_again (es : List IoEvent) : dataCount (.again :: es) = dataCount es :=
  List.countP_cons_of_neg (by decide)

/-- A socket to read from. -/
structure Sock where
  /-- The bytes of the peer that have not been read. -/
  input : List Byte
  events : List IoEvent
  /-- `errno == EAGAIN`, which only a failing call changes. -/
  eagain : Bool

/-- The answer of a `recv` system call. -/
inductive Got where
  | bytes (data : List Byte)
  | again (woken : Bool)
  | err

/-- The bytes that a system call puts into the buffer. -/
def Got.data : Got → List Byte
  | bytes data => data
  | _ => []

/-- `recv (fd, buf, n)`, with the input that is left. -/
def sysRecv (input : List Byte) (n : ℕ) : IoEvent → Got × List Byte
  | .data k =>
      if input = [] then (.again true, [])
      else (.bytes (input.take (min (k + 1) n)), input.drop (min (k + 1) n))
  | .again => (.again true, input)
  | .timeout => (.again false, input)
  | .eof => (.bytes [], input)
  | .err => (.err, input)

/-- A system call reads the next bytes, no more than it was asked for. -/
theorem sysRecv_split {input : List Byte} {n : ℕ} {e : IoEvent} {g : Got} {rest : List Byte}
    (h : sysRecv input n e = (g, rest)) : input = g.data ++ rest ∧ g.data.length ≤ n := by
  cases e with
  | data k =>
      unfold sysRecv at h
      split_ifs at h with hin
      · cases h
        exact ⟨hin, by simp [Got.data]⟩
      · cases h
        refine ⟨(List.take_append_drop _ _).symm, ?_⟩
        show (input.take _).length ≤ n
        rw [List.length_take]
        omega
  | again => cases h; simp [Got.data]
  | timeout => cases h; simp [Got.data]
  | eof => cases h; simp [Got.data]
  | err => cases h; simp [Got.data]

/-- The loop of `hev_task_io_socket_recv` with `got` read so far: the result, the bytes in the
buffer and the socket. -/
def recvLoop (dontwait waitall : Bool) (len : ℕ) :
    List IoEvent → List Byte → Bool → List Byte → Option (Int × List Byte × Sock)
  | [], _, _, _ => none
  | e :: es, input, eagain, got =>
      match sysRecv input (len - got.length) e with
      | (.again woken, input) =>
          if dontwait then
            some (if waitall ∧ got ≠ [] then (got.length : Int) else -1, got, ⟨input, es, true⟩)
          else if woken then recvLoop dontwait waitall len es input true got
          else some (if got ≠ [] then (got.length : Int) else -2, got, ⟨input, es, true⟩)
      | (.err, input) =>
          some (if waitall ∧ got ≠ [] then (got.length : Int) else -1, got, ⟨input, es, false⟩)
      | (.bytes data, input) =>
          if ¬ waitall then some ((data.length : Int), data, ⟨input, es, eagain⟩)
          else if data = [] then some ((got.length : Int), got, ⟨input, es, eagain⟩)
          else if (got ++ data).length < len then
            recvLoop dontwait waitall len es input eagain (got ++ data)
          else some (((got ++ data).length : Int), got ++ data, ⟨input, es, eagain⟩)

/-- `hev_task_io_socket_recv`. -/
def recv (s : Sock) (len : ℕ) (dontwait waitall : Bool) : Option (Int × List Byte × Sock) :=
  recvLoop dontwait waitall len s.events s.input s.eagain []

/-! ### Scattered buffers -/

/-- The buffers that are left of an `iovec` array after `s` bytes. -/
def iovAdvance : List ℕ → ℕ → List ℕ
  | [], _ => []
  | n :: iov, s => if s < n then (n - s) :: iov else iovAdvance iov (s - n)

/-- What is left to read after a short read is the rest of the buffers. -/
theorem sum_iovAdvance (iov : List ℕ) (s : ℕ) : (iovAdvance iov s).sum = iov.sum - s := by
  induction iov generalizing s with
  | nil => simp [iovAdvance]
  | cons n iov ih =>
      unfold iovAdvance
      split_ifs with h
      · simp only [List.sum_cons]
        omega
      · rw [ih, List.sum_cons]
        omega

/-- The loop of `hev_task_io_socket_recvmsg` with `MSG_WAITALL`; `iov` are the buffers left. -/
def recvmsgLoop (len : ℕ) :
    List IoEvent → List ℕ → List Byte → Bool → List Byte → Option (Int × List Byte × Sock)
  | [], _, _, _, _ => none
  | e :: es, iov, input, eagain, got =>
      match sysRecv input iov.sum e with
      | (.again woken, input) =>
          if woken then recvmsgLoop len es iov input true got
          else some (if got ≠ [] then (got.length : Int) else -2, got, ⟨input, es, true⟩)
      | (.err, input) =>
          some (if got ≠ [] then (got.length : Int) else -1, got, ⟨input, es, false⟩)
      | (.bytes data, input) =>
          if data = [] then some ((got.length : Int), got, ⟨input, es, eagain⟩)
          else if (got ++ data).length < len then
            recvmsgLoop len es (iovAdvance iov data.length) input eagain (got ++ data)
          else some (((got ++ data).length : Int), got ++ data, ⟨input, es, eagain⟩)

/-- `hev_task_io_socket_recvmsg` with `MSG_WAITALL` into buffers of the given lengths, which lie
one behind the other. -/
def recvmsg (s : Sock) (iov : List ℕ) : Option (Int × List Byte × Sock) :=
  recvmsgLoop iov.sum s.events iov s.input s.eagain []

/-- Reading into several buffers reads as into one. -/
theorem recvmsgLoop_eq (len : ℕ) (es : List IoEvent) (iov : List ℕ) (input : List Byte)
    (eagain : Bool) (got : List Byte) (hiov : iov.sum = len - got.length) :
    recvmsgLoop len es iov input eagain got = recvLoop false true len es input eagain got := by
  induction es generalizing iov input eagain got with
  | nil => rfl
  | cons e es ih =>
      unfold recvmsgLoop recvLoop
      rw [hiov]
      generalize hsys : sysRecv input (len - got.length) e = sys
      obtain ⟨g, rest⟩ := sys
      cases g with
      | again woken =>
          simp only [Bool.false_eq_true, if_false]
          split_ifs
          · exact ih iov rest true got hiov
          all_goals rfl
      | err => simp
      | bytes data =>
          simp only [not_true_eq_false, if_false]
          split_ifs
          · rfl
          · apply ih
            rw [sum_iovAdvance, hiov, List.length_append]
            omega
          · rfl

theorem recvmsg_eq (s : Sock) (iov : List ℕ) : recvmsg s iov = recv s iov.sum false true :=
  recvmsgLoop_eq iov.sum s.events iov s.input s.eagain [] (by simp)

/-! ### What a read returns -/

/-- A waiting read returns the number of bytes it has put into the buffer, or a result below
zero if it has not read any.  The bytes are the next ones of the input. -/
theorem recvLoop_waitall {len : ℕ} {es : List IoEvent} {input : List Byte} {eagain : Bool}
    {got data : List Byte} {ret : Int} {s : Sock}
    (h : recvLoop false true len es input eagain got = some (ret, data, s))
    (hgot : got.length ≤ len) :
    got ++ input = data ++ s.input ∧ data.length ≤ len ∧
      (ret = data.length ∨ (data = [] ∧ ret < 0)) := by
  induction es generalizing input eagain got with
  | nil => cases h
  | cons e es ih =>
      unfold recvLoop at h
      generalize hsys : sysRecv input (len - got.length) e = sys at h
      obtain ⟨g, rest⟩ := sys
      obtain ⟨hin, hlen⟩ := sysRecv_split hsys
      cases g with
      | again woken =>
          obtain rfl : input = rest := hin
          simp only [Bool.false_eq_true, if_false] at h
          split_ifs at h with hw hg
          · exact ih h hgot
          · cases h
            exact ⟨rfl, hgot, .inl rfl⟩
          · cases h
            exact ⟨rfl, hgot, .inr ⟨not_not.mp hg, by decide⟩⟩
      | err =>
          obtain rfl : input = rest := hin
          simp only [true_and] at h
          split_ifs at h with hg
          · cases h
            exact ⟨rfl, hgot, .inl rfl⟩
          · cases h
            exact ⟨rfl, hgot, .inr ⟨not_not.mp hg, by decide⟩⟩
      | bytes d =>
          simp only [Got.data] at hin hlen
          have hgd : (got ++ d).length ≤ len := by
            rw [List.length_append]
            omega
          simp only [not_true_eq_false, if_false] at h
          split_ifs at h with hd hshort
          · cases h
            exact ⟨by rw [hin, hd]; rfl, hgot, .inl rfl⟩
          · obtain ⟨hsplit, hrest⟩ := ih h hgd
            refine ⟨?_, hrest⟩
            rw [hin, ← hsplit, List.append_assoc]
          · cases h
            exact ⟨by rw [hin, List.append_assoc], hgd, .inl rfl⟩

theorem recv_waitall {s s' : Sock} {len : ℕ} {data : List Byte} {ret : Int}
    (h : recv s len false true = some (ret, data, s')) :
    s.input = data ++ s'.input ∧ data.length ≤ len ∧
      (ret = data.length ∨ (data = [] ∧ ret < 0)) :=
  recvLoop_waitall h (by simp)

/-- A read that does not ask for the whole buffer returns what the first system call that does
not block reads. -/
theorem recvLoop_once {dontwait : Bool} {len : ℕ} {es : List IoEvent} {input : List Byte}
    {eagain : Bool} {data : List Byte} {ret : Int} {s : Sock}
    (h : recvLoop dontwait false len es input eagain [] = some (ret, data, s)) :
    input = data ++ s.input ∧ data.length ≤ len ∧ (ret = data.length ∨ (data = [] ∧ ret < 0)) := by
  induction es generalizing input eagain with
  | nil => cases h
  | cons e es ih =>
      unfold recvLoop at h
      generalize hsys : sysRecv input (len - ([] : List Byte).length) e = sys at h
      obtain ⟨g, rest⟩ := sys
      obtain ⟨hin, hlen⟩ := sysRecv_split hsys
      rw [List.length_nil, Nat.sub_zero] at hlen
      cases g with
      | again woken =>
          simp only [Bool.false_eq_true, false_and, if_false, ne_eq, not_true_eq_false] at h
          split_ifs at h
          · cases h
            exact ⟨hin, hlen, .inr ⟨rfl, by decide⟩⟩
          · obtain rfl : input = rest := hin
            exact ih h
          · cases h
            exact ⟨hin, hlen, .inr ⟨rfl, by decide⟩⟩
      | err =>
          simp only [Bool.false_eq_true, false_and, if_false] at h
          cases h
          exact ⟨hin, hlen, .inr ⟨rfl, by decide⟩⟩
      | bytes d =>
          simp only [Bool.false_eq_true, not_false_eq_true, if_true] at h
          cases h
          exact ⟨hin, hlen, .inl rfl⟩

theorem recv_once {s s' : Sock} {len : ℕ} {dontwait : Bool} {data : List Byte} {ret : Int}
    (h : recv s len dontwait false = some (ret, data, s')) :
    s.input = data ++ s'.input ∧ data.length ≤ len ∧
      (ret = data.length ∨ (data = [] ∧ ret < 0)) :=
  recvLoop_once h

/-- The last system call of the reads that lead from `s` to `s'` meets `e`. -/
def EndsIn (s s' : Sock) (e : IoEvent) : Prop := ∃ met, s.events = met ++ e :: s'.events

theorem EndsIn.unique {s s' : Sock} {e e' : IoEvent} (h : EndsIn s s' e) (h' : EndsIn s s' e') :
    e = e' := by
  obtain ⟨met, hmet⟩ := h
  obtain ⟨met', hmet'⟩ := h'
  have hsplit : (met ++ [e]) ++ s'.events = (met' ++ [e']) ++ s'.events := by
    rw [List.append_assoc, List.append_assoc]
    exact hmet.symm.trans hmet'
  exact (List.append_singleton_inj.mp (List.append_cancel_right hsplit)).2

/-- A waiting read that has not read anything tells how it ended. -/
theorem recvLoop_nothing {len : ℕ} {es : List IoEvent} {input : List Byte} {eagain : Bool}
    {got : List Byte} {ret : Int} {s : Sock}
    (h : recvLoop false true len es input eagain got = some (ret, [], s)) :
    ∃ met e, es = met ++ e :: s.events ∧ ((ret = -1 ∧ e = .err) ∨ (ret = -2 ∧ e = .timeout) ∨
      (ret = 0 ∧ e ≠ .err ∧ e ≠ .timeout)) := by
  induction es generalizing input eagain got with
  | nil => cases h
  | cons e es ih =>
      have hlater {input : List Byte} {eagain : Bool} {got : List Byte}
          (h : recvLoop false true len es input eagain got = some (ret, [], s)) :
          ∃ met e', e :: es = met ++ e' :: s.events ∧ ((ret = -1 ∧ e' = .err) ∨
            (ret = -2 ∧ e' = .timeout) ∨ (ret = 0 ∧ e' ≠ .err ∧ e' ≠ .timeout)) := by
        obtain ⟨met, e', hes, hret⟩ := ih h
        exact ⟨e :: met, e', by rw [hes]; rfl, hret⟩
      cases e with
      | data k =>
          by_cases hin : input = []
          · exact hlater (by simpa [recvLoop, sysRecv, hin] using h)
          · simp only [recvLoop, sysRecv, if_neg hin, not_true_eq_false, if_false] at h
            split_ifs at h
            · cases h
              exact ⟨[], .data k, rfl, .inr (.inr ⟨rfl, by simp, by simp⟩)⟩
            · exact hlater h
            · simp only [Option.some.injEq, Prod.mk.injEq] at h
              obtain ⟨hret, hnil, rfl⟩ := h
              rw [hnil] at hret
              exact ⟨[], .data k, rfl, .inr (.inr ⟨hret.symm, by simp, by simp⟩)⟩
      | again => exact hlater (by simpa [recvLoop, sysRecv] using h)
      | timeout =>
          simp only [recvLoop, sysRecv, Bool.false_eq_true, if_false] at h
          cases h
          exact ⟨[], .timeout, rfl, .inr (.inl ⟨rfl, rfl⟩)⟩
      | eof =>
          simp only [recvLoop, sysRecv, not_true_eq_false, if_false, if_true] at h
          cases h
          exact ⟨[], .eof, rfl, .inr (.inr ⟨rfl, by simp, by simp⟩)⟩
      | err =>
          simp only [recvLoop, sysRecv, true_and] at h
          cases h
          exact ⟨[], .err, rfl, .inl ⟨rfl, rfl⟩⟩

theorem recv_nothing {s s' : Sock} {len : ℕ} {ret : Int}
    (h : recv s len false true = some (ret, [], s')) :
    ∃ e, EndsIn s s' e ∧ ((ret = -1 ∧ e = .err) ∨ (ret = -2 ∧ e = .timeout) ∨
      (ret = 0 ∧ e ≠ .err ∧ e ≠ .timeout)) := by
  obtain ⟨met, e, hes, hret⟩ := recvLoop_nothing h
  exact ⟨e, ⟨met, hes⟩, hret⟩

/-- The size of the first piece of data that the script lets through. -/
def firstPiece : List IoEvent → ℕ
  | [] => 0
  | .data k :: _ => k + 1
  | _ :: es => firstPiece es

/-- A read that does not ask for the whole buffer gets the first piece that is let through. -/
theorem recvLoop_piece {dontwait : Bool} {len : ℕ} {es : List IoEvent} {input : List Byte}
    {eagain : Bool} {data : List Byte} {ret : Int} {s : Sock}
    (h : recvLoop dontwait false len es input eagain [] = some (ret, data, s)) (hne : data ≠ []) :
    data = input.take (min (firstPiece es) len) ∧ ∃ met, es = met ++ s.events := by
  induction es generalizing input eagain with
  | nil => cases h
  | cons e es ih =>
      have hlater {eagain : Bool}
          (h : recvLoop dontwait false len es input eagain [] = some (ret, data, s)) :
          data = input.take (min (firstPiece es) len) ∧ ∃ met, e :: es = met ++ s.events := by
        obtain ⟨hdata, met, hes⟩ := ih h
        exact ⟨hdata, e :: met, by rw [hes]; rfl⟩
      have hnone {n : Int} {s' : Sock} (h : some (n, [], s') = some (ret, data, s)) : False := by
        cases h
        exact hne rfl
      cases e with
      | data k =>
          by_cases hin : input = []
          · have hsplit := (recvLoop_once h).1
            rw [hin] at hsplit
            exact absurd (List.append_eq_nil_iff.mp hsplit.symm).1 hne
          · simp only [recvLoop, sysRecv, if_neg hin, List.length_nil, Nat.sub_zero,
              Bool.false_eq_true, not_false_eq_true, if_true] at h
            cases h
            exact ⟨rfl, [.data k], rfl⟩
      | again =>
          simp only [recvLoop, sysRecv, Bool.false_eq_true, false_and, if_false, if_true] at h
          split_ifs at h
          · exact (hnone h).elim
          · exact hlater h
      | timeout =>
          simp only [recvLoop, sysRecv, Bool.false_eq_true, false_and, if_false, ne_eq,
            not_true_eq_false] at h
          split_ifs at h
          · exact (hnone h).elim
          · exact (hnone h).elim
      | eof =>
          simp only [recvLoop, sysRecv, Bool.false_eq_true, not_false_eq_true, if_true] at h
          exact (hnone h).elim
      | err =>
          simp only [recvLoop, sysRecv, Bool.false_eq_true, false_and, if_false] at h
          exact (hnone h).elim

theorem recv_piece {s s' : Sock} {len : ℕ} {dontwait : Bool} {data : List Byte} {ret : Int}
    (h : recv s len dontwait false = some (ret, data, s')) (hne : data ≠ []) :
    data = s.input.take (min (firstPiece s.events) len) ∧ ∃ met, s.events = met ++ s'.events :=
  recvLoop_piece h hne

/-! ### Reads of a connection that stays up -/

/-- A waiting read that returns has read all it was asked for.  With as many bytes on their way it waits
only while the script has let through fewer pieces. -/
theorem recvLoop_benign {len : ℕ} {es : List IoEvent} (hb : ∀ e ∈ es, e.benign = true)
    (input : List Byte) (eagain : Bool) (got : List Byte) (hgot : got.length ≤ len) :
    (∃ s, recvLoop false true len es input eagain got =
        some ((len : Int), got ++ input.take (len - got.length), s) ∧
      len - got.length ≤ input.length ∧ input ≠ [] ∧ s.input = input.drop (len - got.length) ∧
      (∀ e ∈ s.events, e.benign = true) ∧ s.events.length < es.length ∧
      (got.length < len → dataCount es ≤ dataCount s.events + (len - got.length))) ∨
    (recvLoop false true len es input eagain got = none ∧
      (got.length < len → len - got.length ≤ input.length → dataCount es < len - got.length)) := by
  induction es generalizing input eagain got with
  | nil =>
      refine .inr ⟨rfl, fun hlt _ => ?_⟩
      show 0 < _
      omega
  | cons e es ih =>
      have hb' : ∀ e ∈ es, e.benign = true := fun e' h' => hb e' (List.mem_cons_of_mem _ h')
      rw [List.length_cons]
      obtain rfl | ⟨k, rfl⟩ := IoEvent.benign_cases (hb e (by simp))
      · rw [dataCount_again]
        rcases ih hb' input true got hgot with ⟨s, hs, hle, hne, hin, hbs, hlen, hcount⟩ | h
        · exact .inl ⟨s, hs, hle, hne, hin, hbs, by omega, hcount⟩
        · exact .inr h
      · rw [dataCount_data]
        by_cases hin : input = []
        · subst hin
          rcases ih hb' [] true got hgot with ⟨s, -, -, hne, -⟩ | h
          · exact absurd rfl hne
          · exact .inr ⟨h.1, fun hlt hle => absurd hle (by simp only [List.length_nil]; omega)⟩
        have hpos : 0 < input.length := List.length_pos_iff.mpr hin
        generalize hm : min (k + 1) (len - got.length) = m
        have hlen : (got ++ input.take m).length = got.length + min m input.length := by
          rw [List.length_append, List.length_take]
        simp only [recvLoop, sysRecv, hm, not_true_eq_false, if_false,
          List.take_eq_nil_iff, hin, or_false, hlen]
        split_ifs with hzero hmore
        · -- nothing was asked for
          have hlen : len - got.length = 0 := by omega
          refine .inl ⟨⟨input.drop m, es, eagain⟩, ?_, by omega, hin, ?_, hb', by simp, by omega⟩
          · rw [hlen, List.take_zero, List.append_nil, show got.length = len by omega]
          · rw [hlen, hzero]
        · have hsum : len - got.length = m + (len - (got.length + m)) := by omega
          rcases ih hb' (input.drop m) eagain (got ++ input.take m) (by omega) with
            ⟨s, hs, hle, hne, hdrop, hbs, hshorter, hcount⟩ | ⟨hs, hcount⟩
          · have hlt : m < input.length := by
              by_contra hlt
              exact hne (List.drop_eq_nil_of_le (not_lt.mp hlt))
            rw [hlen, Nat.min_eq_left (by omega)] at hs hle hdrop hcount
            rw [List.length_drop] at hle
            refine .inl ⟨s, ?_, by omega, hin, ?_, hbs, by omega, by omega⟩
            · rw [hs, List.append_assoc, hsum, List.take_add]
            · rw [hdrop, List.drop_drop, ← hsum]
          · rw [hlen, List.length_drop] at hcount
            exact .inr ⟨hs, by omega⟩
        · have hm' : m = len - got.length := by omega
          refine .inl ⟨⟨input.drop m, es, eagain⟩, ?_, by omega, hin, by rw [← hm'], hb', by simp,
            fun hlt => ?_⟩
          · rw [← hm', show got.length + min m input.length = len by omega]
          · show dataCount es + 1 ≤ dataCount es + (len - got.length)
            omega

theorem recv_dontwait_data {s : Sock} {k : ℕ} {es : List IoEvent} (hev : s.events = .data k :: es)
    (hin : s.input ≠ []) (len : ℕ) :
    recv s len true false = some (((s.input.take (min (k + 1) len)).length : Int),
      s.input.take (min (k + 1) len), ⟨s.input.drop (min (k + 1) len), es, s.eagain⟩) := by
  simp [recv, hev, recvLoop, sysRecv, hin]

theorem recv_dontwait_again {s : Sock} {es : List IoEvent} (hev : s.events = .again :: es)
    (len : ℕ) : recv s len true false = some (-1, [], ⟨s.input, es, true⟩) := by
  simp [recv, hev, recvLoop, sysRecv]

/-- `s'` is `s` with `n` bytes read, each piece of data that was let through at least one. -/
structure Advanced (s s' : Sock) (n : ℕ) : Prop where
  input : s'.input = s.input.drop n
  benign : ∀ e ∈ s'.events, e.benign = true
  shorter : s'.events.length < s.events.length
  count : dataCount s.events ≤ dataCount s'.events + n

theorem Advanced.trans {s₁ s₂ s₃ : Sock} {m n : ℕ} (h₁ : Advanced s₁ s₂ m) (h₂ : Advanced s₂ s₃ n) :
    Advanced s₁ s₃ (m + n) where
  input := by rw [h₂.input, h₁.input, List.drop_drop]
  benign := h₂.benign
  shorter := Nat.lt_trans h₂.shorter h₁.shorter
  count := by
    have := h₁.count
    have := h₂.count
    omega

theorem recv_benign {s : Sock} (hb : ∀ e ∈ s.events, e.benign = true) (len : ℕ) :
    (∃ s', recv s len false true = some ((len : Int), s.input.take len, s') ∧
      len ≤ s.input.length ∧ s.input ≠ [] ∧ s'.input = s.input.drop len ∧
      (∀ e ∈ s'.events, e.benign = true) ∧ (0 < len → Advanced s s' len)) ∨
    (recv s len false true = none ∧ (0 < len → len ≤ s.input.length → dataCount s.events < len)) := by
  rcases recvLoop_benign hb s.input s.eagain [] (Nat.zero_le len) with
    ⟨s', hs, hle, hne, hin, hbs, hlen, hcount⟩ | h
  · exact .inl ⟨s', hs, hle, hne, hin, hbs, fun hpos => ⟨hin, hbs, hlen, hcount hpos⟩⟩
  · exact .inr h

/-! ### Writing -/

/-- The buffers that are left of an `iovec` array to write after `s` bytes. -/
def iovDrop : List (List Byte) → ℕ → List (List Byte)
  | [], _ => []
  | b :: iov, s => if s < b.length then b.drop s :: iov else iovDrop iov (s - b.length)

theorem flatten_iovDrop (iov : List (List Byte)) (s : ℕ) :
    (iovDrop iov s).flatten = iov.flatten.drop s := by
  induction iov generalizing s with
  | nil => simp [iovDrop]
  | cons b iov ih =>
      unfold iovDrop
      split_ifs with h
      · rw [List.flatten_cons, List.flatten_cons, List.drop_append_of_le_length (by omega)]
      · have hb : b.length ≤ s := by omega
        rw [ih, List.flatten_cons, List.drop_append, List.drop_eq_nil_of_le hb, List.nil_append]

/-- The loop of `hev_task_io_socket_sendmsg` with `MSG_WAITALL`, with `sent` written so far: the
result, all bytes written and the events left. -/
def sendmsgLoop (len : ℕ) :
    List IoEvent → List (List Byte) → List Byte → Option (Int × List Byte × List IoEvent)
  | [], _, _ => none
  | .data k :: es, iov, sent =>
      let now := iov.flatten.take (k + 1)
      if now = [] then some ((sent.length : Int), sent, es)
      else if (sent ++ now).length < len then sendmsgLoop len es (iovDrop iov now.length) (sent ++ now)
      else some (((sent ++ now).length : Int), sent ++ now, es)
  | .again :: es, iov, sent => sendmsgLoop len es iov sent
  | .timeout :: es, _, sent => some (if sent ≠ [] then (sent.length : Int) else -2, sent, es)
  | _ :: es, _, sent => some (if sent ≠ [] then (sent.length : Int) else -1, sent, es)

/-- `hev_task_io_socket_sendmsg` with `MSG_WAITALL`. -/
def sendmsg (iov : List (List Byte)) (events : List IoEvent) :
    Option (Int × List Byte × List IoEvent) :=
  sendmsgLoop iov.flatten.length events iov []

/-- A write returns the number of bytes it has written, or a result below zero if it has not
written any.  The bytes are the first ones of the buffers. -/
theorem sendmsgLoop_cases {len : ℕ} {es es' : List IoEvent} {iov : List (List Byte)}
    {sent out : List Byte} {ret : Int} (h : sendmsgLoop len es iov sent = some (ret, out, es')) :
    (∃ rest, sent ++ iov.flatten = out ++ rest) ∧
      (ret = out.length ∨ (out = [] ∧ ret < 0)) := by
  induction es generalizing iov sent with
  | nil => cases h
  | cons e es ih =>
      have hstop : ∀ n : Int, n < 0 → some ((if sent ≠ [] then (sent.length : Int) else n), sent, es) =
          some (ret, out, es') → (∃ rest, sent ++ iov.flatten = out ++ rest) ∧
            (ret = out.length ∨ (out = [] ∧ ret < 0)) := by
        intro n hn h
        split_ifs at h with hs
        · cases h
          exact ⟨⟨_, rfl⟩, .inl rfl⟩
        · cases h
          exact ⟨⟨_, rfl⟩, .inr ⟨not_not.mp hs, hn⟩⟩
      cases e with
      | data k =>
          simp only [sendmsgLoop] at h
          split_ifs at h with hnow hshort
          · cases h
            exact ⟨⟨_, rfl⟩, .inl rfl⟩
          · obtain ⟨⟨rest, hrest⟩, hret⟩ := ih h
            refine ⟨⟨rest, ?_⟩, hret⟩
            rw [← hrest, flatten_iovDrop, List.append_assoc, List.length_take,
              List.take_eq_take_min, List.take_append_drop]
          · cases h
            refine ⟨⟨iov.flatten.drop (k + 1), ?_⟩, .inl rfl⟩
            rw [List.append_assoc, List.take_append_drop]
      | again => exact ih h
      | timeout => exact hstop _ (by decide) h
      | eof => exact hstop _ (by decide) h
      | err => exact hstop _ (by decide) h

theorem sendmsg_cases {iov : List (List Byte)} {es es' : List IoEvent} {out : List Byte} {ret : Int}
    (h : sendmsg iov es = some (ret, out, es')) :
    (∃ rest, iov.flatten = out ++ rest) ∧ (ret = out.length ∨ (out = [] ∧ ret < 0)) :=
  sendmsgLoop_cases h

/-- On a connection that stays up, a write that returns has written everything. -/
theorem sendmsgLoop_benign {len : ℕ} {es es' : List IoEvent} (hb : ∀ e ∈ es, e.benign = true)
    {iov : List (List Byte)} {sent out : List Byte} {ret : Int}
    (hlen : (sent ++ iov.flatten).length = len)
    (h : sendmsgLoop len es iov sent = some (ret, out, es')) :
    out = sent ++ iov.flatten ∧ ret = len ∧ ∀ e ∈ es', e.benign = true := by
  induction es generalizing iov sent with
  | nil => cases h
  | cons e es ih =>
      have hb' : ∀ e ∈ es, e.benign = true := fun e' h' => hb e' (List.mem_cons_of_mem _ h')
      obtain rfl | ⟨k, rfl⟩ := IoEvent.benign_cases (hb e (by simp))
      · exact ih hb' hlen h
      · simp only [sendmsgLoop] at h
        split_ifs at h with hnow hshort
        · have hnil : iov.flatten = [] := by simpa using hnow
          cases h
          rw [hnil, List.append_nil] at hlen ⊢
          exact ⟨rfl, by rw [hlen], hb'⟩
        · have hsplit : sent ++ iov.flatten.take (k + 1) ++
              (iovDrop iov (iov.flatten.take (k + 1)).length).flatten = sent ++ iov.flatten := by
            rw [flatten_iovDrop, List.append_assoc, List.length_take, List.take_eq_take_min,
              List.take_append_drop]
          rw [← hsplit]
          exact ih hb' (by rw [hsplit, hlen]) h
        · cases h
          have hall : iov.flatten.length ≤ k + 1 := by
            rw [List.length_append, List.length_take] at hshort
            rw [List.length_append] at hlen
            omega
          rw [List.take_of_length_le hall]
          exact ⟨rfl, by rw [hlen], hb'⟩

theorem sendmsg_benign {es es' : List IoEvent} (hb : ∀ e ∈ es, e.benign = true)
    {iov : List (List Byte)} {out : List Byte} {ret : Int}
    (h : sendmsg iov es = some (ret, out, es')) :
    out = iov.flatten ∧ ret = iov.flatten.length ∧ ∀ e ∈ es', e.benign = true :=
  sendmsgLoop_benign hb (show ([] ++ iov.flatten).length = iov.flatten.length by simp) h

/-! ### Datagrams -/

end HevTunnel
