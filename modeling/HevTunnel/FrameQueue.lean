import HevTunnel.HevList
import HevTunnel.TCPUp
import HevTunnel.SessionUDP
import HevTunnel.Transition

/-! # The frame queue of a UDP session

`udp_recv_handler` appends a frame for each datagram to `frame_list`.  `hev_socks5_session_udp_fwd_f`
collects the first frames into a batch, is suspended while the batch is sent, and then removes as
many frames from the front of the list as were sent.

* `FrameQueue` is the queue with its links in memory, and what has been accepted, sent and dropped.
  A step is `none` when it follows a link that is `NULL` or leads to a frame that was freed.
* `queue_exact`: no step does, the frames sent and the frames in the list are those accepted in their
  order, and the counter of the session is the length of the list. -/

namespace HevTunnel

/-- `HevSocks5UDPFrame`: the destination and the chain of the datagram, which is not `NULL`. -/
structure UdpFrame where
  addr : Option Addr
  data : List Pbuf
  full : data ≠ []

/-- A datagram that was dropped: how many frames were queued then, and whether there was memory for
another. -/
structure Dropped where
  queued : ℕ
  alloc : Bool

structure FrameQueue where
  /-- `frame_list`; a node is the address of its frame. -/
  list : LinkedList ℕ
  /-- `self->frames`. -/
  frames : Int
  /-- The frames in memory, `none` where there is none or it was freed. -/
  heap : ℕ → Option UdpFrame
  /-- The frames in `msgv` while `hev_socks5_session_udp_fwd_f` is suspended. -/
  batch : Option (List UdpFrame)
  accepted : List UdpFrame
  sent : List UdpFrame
  dropped : List Dropped

namespace FrameQueue

def init : FrameQueue := ⟨.empty (fun _ => ⟨none, none⟩), 0, fun _ => none, none, [], [], []⟩

/-- The datagram is freed without a frame. -/
def drop (q : FrameQueue) (alloc : Bool) : FrameQueue :=
  { q with dropped := q.dropped ++ [⟨q.accepted.length - q.sent.length, alloc⟩] }

/-- `udp_recv_handler`; `alloc` is what `hev_malloc` returns. -/
def recvHandler (q : FrameQueue) (f : UdpFrame) (alloc : Option ℕ) : FrameQueue :=
  if q.frames > udpPoolSize then q.drop alloc.isSome
  else
    match alloc with
    | none => q.drop false
    | some p =>
        { q with
          list := q.list.addTail p
          frames := q.frames + 1
          heap := Function.update q.heap p (some f)
          accepted := q.accepted ++ [f] }

/-- The first loop of `hev_socks5_session_udp_fwd_f`: the next `n` frames from a node on. -/
def collect (q : FrameQueue) : ℕ → Option ℕ → Option (List UdpFrame)
  | 0, _ => some []
  | n + 1, node => do
      let p ← node
      let f ← q.heap p
      let fs ← q.collect n (q.list.node p).next
      pure (f :: fs)

/-- `(res > num) ? num : res`. -/
def batchSize (q : FrameQueue) (num : ℕ) : ℕ := if q.frames > num then num else q.frames.toNat

/-- `hev_socks5_session_udp_fwd_f` up to the call that sends the batch. -/
def fwdFSend (q : FrameQueue) (num : ℕ) : Option FrameQueue :=
  if q.frames ≤ 0 then some q
  else do
    let fs ← q.collect (q.batchSize num) q.list.head
    pure { q with batch := some fs }

/-- The second loop of `hev_socks5_session_udp_fwd_f`. -/
def remove : ℕ → FrameQueue → Option FrameQueue
  | 0, q => some q
  | n + 1, q => do
      let p ← q.list.head
      let _ ← q.heap p
      remove n { q with
        list := q.list.del p
        frames := q.frames - 1
        heap := Function.update q.heap p none }

/-- `hev_socks5_session_udp_fwd_f` after the batch `fs` was sent with the result `res`. -/
def fwdFDone (q : FrameQueue) (fs : List UdpFrame) (res : Int) : Option FrameQueue :=
  if res ≤ 0 then some { q with batch := none }
  else do
    let q ← q.remove res.toNat
    pure { q with batch := none, sent := q.sent ++ fs.take res.toNat }

inductive Step where
  /-- A datagram arrives. -/
  | arrive (f : UdpFrame) (alloc : Option ℕ)
  /-- The splice loop calls `hev_socks5_session_udp_fwd_f`. -/
  | send (num : ℕ)
  /-- Sending the batch returns. -/
  | done (res : Int)

/-- One step.  What cannot happen changes nothing: memory that is in use is not allocated again, a
suspended call is not made again, and no more messages are reported than were given. -/
def step (q : FrameQueue) : Step → Option FrameQueue
  | .arrive f alloc => some (if alloc.any (fun p => (q.heap p).isSome) then q else q.recvHandler f alloc)
  | .send num => if q.batch.isSome then some q else q.fwdFSend num
  | .done res =>
      match q.batch with
      | none => some q
      | some fs => if res ≤ fs.length then q.fwdFDone fs res else some q

/-! ### The property -/

/-- The list holds the frames `fs`, in this order. -/
def Holds (q : FrameQueue) (fs : List UdpFrame) : Prop :=
  ∃ ps, q.list.Links ps ∧ ps.map q.heap = fs.map some

/-- The frames sent and the frames in the list are those accepted, in order; the counter is the
length of the list and stays within its bounds; a datagram is dropped only while the list is full or
without memory for its frame. -/
structure Exact (q : FrameQueue) : Prop where
  order : ∃ fs, q.Holds fs ∧ q.sent ++ fs = q.accepted ∧ q.frames = fs.length
  bound : 0 ≤ q.frames ∧ q.frames ≤ udpPoolSize + 1
  dropped : ∀ d ∈ q.dropped, udpPoolSize < d.queued ∨ d.alloc = false

/-- With the frames of a batch still at the front of the list. -/
structure Inv (q : FrameQueue) (fs : List UdpFrame) : Prop where
  holds : q.Holds fs
  order : q.sent ++ fs = q.accepted
  count : q.frames = fs.length
  size : fs.length ≤ udpPoolSize + 1
  batch : ∀ b, q.batch = some b → b <+: fs
  dropped : ∀ d ∈ q.dropped, udpPoolSize < d.queued ∨ d.alloc = false

section step
variable {q : FrameQueue} {fs : List UdpFrame}

theorem Inv.exact (h : q.Inv fs) : q.Exact := by
  refine ⟨⟨fs, h.holds, h.order, h.count⟩, ?_, h.dropped⟩
  have := h.count
  have := h.size
  omega

theorem inv_init : init.Inv [] :=
  ⟨⟨[], .empty _, rfl⟩, rfl, rfl, by simp, by simp [init], by simp [init]⟩

/-- The number of frames in the list. -/
theorem Inv.queued (h : q.Inv fs) : q.accepted.length - q.sent.length = fs.length := by
  rw [← h.order, List.length_append, Nat.add_sub_cancel_left]

theorem Inv.drop (h : q.Inv fs) {alloc : Bool} (hdrop : udpPoolSize < fs.length ∨ alloc = false) :
    (q.drop alloc).Inv fs := by
  refine ⟨h.holds, h.order, h.count, h.size, h.batch, ?_⟩
  intro d hd
  rcases List.mem_append.mp hd with hd | hd
  · exact h.dropped d hd
  · rw [List.mem_singleton.mp hd, h.queued]
    exact hdrop

/-- The nodes of the list are frames in memory. -/
theorem heap_ne_none {ps : List ℕ} (hheap : ps.map q.heap = fs.map some) {p : ℕ} (hp : p ∈ ps) :
    q.heap p ≠ none := by
  have hmem : q.heap p ∈ fs.map some := hheap ▸ List.mem_map_of_mem hp
  obtain ⟨f, -, hf⟩ := List.mem_map.mp hmem
  rw [← hf]
  simp

/-- A change of the memory at other addresses leaves the frames alone. -/
theorem map_heap_update {ps : List ℕ} {p : ℕ} (hp : p ∉ ps) (f : Option UdpFrame) :
    ps.map (Function.update q.heap p f) = ps.map q.heap := by
  apply List.map_congr_left
  intro p' hp'
  exact Function.update_of_ne (ne_of_mem_of_not_mem hp' hp) _ _

/-- A frame in free memory joins the list. -/
theorem Inv.accept (h : q.Inv fs) {p : ℕ} (hp : q.heap p = none) (f : UdpFrame)
    (hsize : fs.length ≤ udpPoolSize) :
    Inv { q with
      list := q.list.addTail p
      frames := q.frames + 1
      heap := Function.update q.heap p (some f)
      accepted := q.accepted ++ [f] } (fs ++ [f]) := by
  obtain ⟨ps, hlinks, hheap⟩ := h.holds
  have hmem : p ∉ ps := fun hmem => heap_ne_none hheap hmem hp
  refine ⟨⟨ps ++ [p], hlinks.addTail hmem, ?_⟩, ?_, ?_, ?_, ?_, h.dropped⟩
  · show (ps ++ [p]).map (Function.update q.heap p (some f)) = _
    rw [List.map_append, List.map_append, map_heap_update hmem, hheap]
    simp
  · show q.sent ++ (fs ++ [f]) = q.accepted ++ [f]
    rw [← h.order, List.append_assoc]
  · show q.frames + 1 = _
    rw [h.count, List.length_append]
    rfl
  · rw [List.length_append, List.length_singleton]
    omega
  · intro b hb
    exact (h.batch b hb).trans (List.prefix_append _ _)

theorem Inv.recvHandler (h : q.Inv fs) (f : UdpFrame) {alloc : Option ℕ}
    (hfree : ∀ p, alloc = some p → q.heap p = none) :
    ∃ fs', (q.recvHandler f alloc).Inv fs' := by
  have hcount := h.count
  unfold FrameQueue.recvHandler
  split_ifs with hfull
  · exact ⟨fs, h.drop (.inl (by omega))⟩
  · cases alloc with
    | none => exact ⟨fs, h.drop (.inr rfl)⟩
    | some p => exact ⟨fs ++ [f], h.accept (hfree p rfl) f (by omega)⟩

/-- The first loop collects the frames at the front of a part of the list. -/
theorem collect_links {pre ps : List ℕ} (hlinks : q.list.Links (pre ++ ps))
    (hheap : ps.map q.heap = fs.map some) {n : ℕ} (hn : n ≤ fs.length) :
    q.collect n ps.head? = some (fs.take n) := by
  induction n generalizing pre ps fs with
  | zero => simp [collect]
  | succ n ih =>
      cases fs with
      | nil => simp at hn
      | cons f fs =>
          cases ps with
          | nil => cases hheap
          | cons p ps =>
              rw [List.map_cons, List.map_cons, List.cons.injEq] at hheap
              have hnext := hlinks.node pre p ps rfl
              have hrest := ih (show q.list.Links (pre ++ [p] ++ ps) by simpa using hlinks)
                hheap.2 (by simpa using hn)
              simp [collect, hheap.1, hnext, hrest]

/-- The second loop removes the frames at the front of the list. -/
theorem remove_holds (h : q.Holds fs) {n : ℕ} (hn : n ≤ fs.length) :
    ∃ list heap, q.remove n = some { q with list := list, frames := q.frames - n, heap := heap } ∧
      Holds { q with list := list, frames := q.frames - n, heap := heap } (fs.drop n) := by
  induction n generalizing q fs with
  | zero => exact ⟨q.list, q.heap, by simp [remove], by simpa using h⟩
  | succ n ih =>
      obtain ⟨ps, hlinks, hheap⟩ := h
      cases fs with
      | nil => simp at hn
      | cons f fs =>
          cases ps with
          | nil => cases hheap
          | cons p ps =>
              rw [List.map_cons, List.map_cons, List.cons.injEq] at hheap
              have hp : p ∉ ps := (List.nodup_cons.mp hlinks.nodup).1
              have hone : Holds { q with
                  list := q.list.del p
                  frames := q.frames - 1
                  heap := Function.update q.heap p none } fs := by
                refine ⟨ps, hlinks.del_head, ?_⟩
                exact (map_heap_update hp none).trans hheap.2
              obtain ⟨list, heap, hrem, hholds⟩ := ih hone (by simpa using hn)
              have hframes : q.frames - 1 - (n : Int) = q.frames - (n + 1 : ℕ) := by omega
              rw [hframes] at hrem hholds
              refine ⟨list, heap, ?_, hholds⟩
              have hhead : q.list.head = some p := hlinks.head
              simpa [remove, hhead, hheap.1] using hrem

/-- The batch is the front of the list. -/
theorem Inv.fwdFSend_eq (h : q.Inv fs) (num : ℕ) :
    q.fwdFSend num = some (if q.frames ≤ 0 then q else
      { q with batch := some (fs.take (q.batchSize num)) }) := by
  have hcount := h.count
  obtain ⟨ps, hlinks, hheap⟩ := h.holds
  have hsize : q.batchSize num ≤ fs.length := by
    unfold batchSize
    split_ifs <;> omega
  have hcollect := collect_links (show q.list.Links ([] ++ ps) from hlinks) hheap hsize
  unfold FrameQueue.fwdFSend
  split_ifs with hempty
  · rfl
  · rw [hlinks.head, hcollect]
    rfl

theorem Inv.fwdFSend (h : q.Inv fs) (num : ℕ) : ∃ q', q.fwdFSend num = some q' ∧ q'.Inv fs := by
  refine ⟨_, h.fwdFSend_eq num, ?_⟩
  split_ifs with hempty
  · exact h
  · refine ⟨h.holds, h.order, h.count, h.size, ?_, h.dropped⟩
    intro b hb
    rw [← Option.some.inj hb]
    exact List.take_prefix _ _

theorem Inv.fwdFDone (h : q.Inv fs) {b : List UdpFrame} (hb : q.batch = some b) {res : Int}
    (hres : res ≤ b.length) : ∃ q' fs', q.fwdFDone b res = some q' ∧ q'.Inv fs' := by
  unfold FrameQueue.fwdFDone
  split_ifs with hfail
  · exact ⟨{ q with batch := none }, fs, rfl, h.holds, h.order, h.count, h.size, by simp, h.dropped⟩
  · obtain ⟨rest, hrest⟩ := h.batch b hb
    have hle : res.toNat ≤ b.length := by omega
    have hle' : res.toNat ≤ fs.length := by
      rw [← hrest, List.length_append]
      omega
    obtain ⟨list, heap, hrem, hholds⟩ := remove_holds h.holds hle'
    have htake : b.take res.toNat = fs.take res.toNat := by
      rw [← hrest, List.take_append_of_le_length hle]
    refine ⟨{ q with
      list := list
      frames := q.frames - res.toNat
      heap := heap
      batch := none
      sent := q.sent ++ b.take res.toNat }, fs.drop res.toNat, by rw [hrem]; rfl, hholds, ?_, ?_, ?_,
      by simp, h.dropped⟩
    · show q.sent ++ b.take res.toNat ++ fs.drop res.toNat = q.accepted
      rw [htake, List.append_assoc, List.take_append_drop, h.order]
    · show q.frames - (res.toNat : Int) = _
      rw [h.count, List.length_drop]
      omega
    · have := h.size
      rw [List.length_drop]
      omega

/-- Every step is possible and keeps the invariant. -/
theorem Inv.step (h : q.Inv fs) (x : Step) : ∃ q', q.step x = some q' ∧ ∃ fs', q'.Inv fs' := by
  cases x with
  | arrive f alloc =>
      refine ⟨_, rfl, ?_⟩
      split_ifs with hused
      · exact ⟨fs, h⟩
      · apply h.recvHandler f
        rintro p rfl
        simpa using hused
  | send num =>
      unfold FrameQueue.step
      split_ifs with hbusy
      · exact ⟨q, rfl, fs, h⟩
      · obtain ⟨q', hq', h'⟩ := h.fwdFSend num
        exact ⟨q', hq', fs, h'⟩
  | done res =>
      unfold FrameQueue.step
      cases hb : q.batch with
      | none => exact ⟨q, rfl, fs, h⟩
      | some b =>
          simp only
          split_ifs with hres
          · obtain ⟨q', fs', hq', h'⟩ := h.fwdFDone hb hres
            exact ⟨q', hq', fs', h'⟩
          · exact ⟨q, rfl, fs, h⟩

end step

/-- For every interleaving of arrivals with calls that send any number of frames or fail: the queue
is never corrupted, no frame is lost, sent twice or out of order, and a datagram is dropped only
while more than `UDP_POOL_SIZE` frames are queued or without memory for its frame. -/
theorem queue_exact (xs : List Step) :
    ∃ q, runSteps step init xs = some q ∧ q.Exact := by
  have hstep : ∀ {q : FrameQueue} (x : Step), (∃ fs, q.Inv fs) →
      ∃ q' : FrameQueue, step q x = some q' ∧ ∃ fs, q'.Inv fs := fun x ⟨_, h⟩ => h.step x
  obtain ⟨q, hq, fs, h⟩ := runSteps_total (fun q : FrameQueue => ∃ fs, q.Inv fs) hstep
    ⟨[], inv_init⟩ xs
  exact ⟨q, hq, h.exact⟩

/-- A datagram without data. -/
def emptyFrame : UdpFrame := ⟨none, [⟨[], 0⟩], by simp⟩

/-- Without memory a datagram is dropped from an empty queue. -/
theorem dropped_without_memory :
    ∃ q, runSteps step init [.arrive emptyFrame none] = some q ∧ q.accepted = [] ∧
      ∃ d ∈ q.dropped, ¬ udpPoolSize < d.queued :=
  ⟨_, rfl, rfl, ⟨0, false⟩, List.mem_singleton_self _, by decide⟩

end FrameQueue
end HevTunnel
