import HevTunnel.CircularBuffer
import HevTunnel.SessionTask
import HevTunnel.TCPDown
import HevTunnel.TCPUp

/-! # Relaying between two descriptors: `hev_task_io_splice`

`hev_task_io_splice` relays bytes in both directions between two pairs of descriptors until both
directions are over or its yielder fails.  The bytes on their way are kept in a circular buffer or,
where the kernel has `splice`, in a pipe; `task_io_splice` has a body for each of the two.

* A `Splicer` is what the two bodies do with their store, and `Splicer.taskIoSplice` is the rest of
  them.  `circular` and `pipe` are the two.
* `Splicer.pass` is one round of the loop, with what the system calls answer.
* `fifo` is a splicer that keeps a list of bytes.  What relaying means is proved of it, in
  `Direction.Sound` and `Splicing.Sound`.
* `Sim S T R` says that `T` can follow `S`, and `Sim.run` carries this through the loop.  Both
  splicers follow `fifo`, and a circular buffer follows it back, so that it can do whatever a pipe
  does. -/

namespace HevTunnel

/-! ### One direction -/

/-- What `task_io_splice` does with the store of one direction. -/
structure Splicer (σ : Type) where
  /-- Whether it reads from its source. -/
  reads : σ → Bool
  /-- How many bytes a read can give. -/
  room : σ → ℕ
  fill : σ → List Byte → σ
  /-- Whether it writes to its destination. -/
  writes : σ → Bool
  /-- The bytes that it offers to a write. -/
  offer : σ → List Byte
  drain : σ → ℕ → σ

/-- An end of a direction. -/
inductive End where
  | source
  | destination
deriving DecidableEq

/-- A direction, with the bytes read and written so far. -/
structure Direction (σ : Type) where
  store : σ
  received : List Byte
  sent : List Byte
  /-- Whether a read has answered with the end of the stream or an error. -/
  ended : Bool
  /-- Whether a write has failed. -/
  broken : Bool
  /-- For each `shutdown` of the destination, what has been sent before it. -/
  shutdowns : List (List Byte)
  /-- The end that has answered with `EAGAIN` last in the last call. -/
  blocked : Option End

namespace Splicer
variable {σ τ : Type}

/-- The first half of `task_io_splice`, with its `res`. -/
def read (S : Splicer σ) (d : Direction σ) (r : Readv) : Option (Int × Direction σ) :=
  if S.reads d.store then
    match r with
    | .data bytes =>
        if bytes = [] ∨ S.room d.store < bytes.length then none
        else some (1, { d with
          store := S.fill d.store bytes
          received := d.received ++ bytes
          blocked := none })
    | .again => some (0, { d with blocked := some .source })
    | .eof | .error => some (-1, { d with ended := true, blocked := none })
  else some (1, { d with blocked := none })

/-- The second half of `task_io_splice`. -/
def write (S : Splicer σ) (res : Int) (d : Direction σ) (r : Writev) :
    Option (Int × Direction σ) :=
  if S.writes d.store then
    match r with
    | .wrote n =>
        if n = 0 ∨ (S.offer d.store).length < n then none
        else some (1, { d with
          store := S.drain d.store n
          sent := d.sent ++ (S.offer d.store).take n
          blocked := none })
    | .again => some (0, { d with blocked := some .destination })
    | .stop => some (-1, { d with broken := true, blocked := none })
  else if res < 0 then some (res, { d with shutdowns := d.shutdowns ++ [d.sent] })
  else some (res, d)

/-- `task_io_splice`, with what its two system calls answer. -/
def taskIoSplice (S : Splicer σ) (d : Direction σ) (x : Readv × Writev) :
    Option (Int × Direction σ) :=
  (S.read d x.1).bind fun y => S.write y.1 y.2 x.2

/-- The call of `task_io_splice` in the loop, made while the last result is not negative. -/
def call (S : Splicer σ) (res : Int) (d : Direction σ) (x : Readv × Writev) :
    Option (Int × Direction σ) :=
  if 0 ≤ res then S.taskIoSplice d x else some (res, d)

end Splicer

/-! ### The two stores -/

/-- `task_io_splice` with a circular buffer. -/
def circular : Splicer CircularBuffer where
  reads c := !c.writing.isEmpty
  room c := (iovCells c.writing).length
  fill := CircularBuffer.fill
  writes c := !c.reading.isEmpty
  offer c := (iovCells c.reading).map c.data
  drain := CircularBuffer.readFinish

/-- A pipe of the kernel that takes up to `size` bytes, with the two counters of the splicer. -/
structure Pipe where
  data : List Byte
  size : ℕ
  wlen : ℕ
  blen : ℕ

/-- A new pipe. -/
def Pipe.init (size blen : ℕ) : Pipe := ⟨[], size, 0, blen⟩

/-- `task_io_splice` with a pipe.  It asks its source also when the pipe is full. -/
def pipe : Splicer Pipe where
  reads _ := true
  room p := min p.blen (p.size - p.data.length)
  fill p bs := { p with data := p.data ++ bs, wlen := sizeAdd p.wlen bs.length }
  writes p := p.wlen != 0
  offer p := p.data.take p.blen
  drain p n := { p with data := p.data.drop n, wlen := sizeSub p.wlen n }

/-- A store of at most `cap` bytes that is a list. -/
def fifo (cap : ℕ) : Splicer (List Byte) where
  reads l := l.length < cap
  room l := cap - l.length
  fill l bs := l ++ bs
  writes l := !l.isEmpty
  offer l := l
  drain l n := l.drop n

/-! ### The loop -/

/-- The locals of `hev_task_io_splice`, with the pauses it has made; `halted` is set when the loop has
ended, to whether the yielder has ended it. -/
structure Splicing (σ : Type) where
  f : Direction σ
  b : Direction σ
  resF : Int
  resB : Int
  pauses : List YieldType
  halted : Option Bool

/-- The answers that a round of the loop gets; `stop` is whether the yielder fails. -/
structure Round where
  f : Readv × Writev
  b : Readv × Writev
  stop : Bool

/-- A direction before its first byte. -/
def Direction.start {σ : Type} (store : σ) : Direction σ :=
  ⟨store, [], [], false, false, [], none⟩

/-- `hev_task_io_splice` before its loop, with the two stores. -/
def Splicing.start {σ : Type} (f b : σ) : Splicing σ :=
  ⟨.start f, .start b, 1, 1, [], none⟩

/-- The end of a round of `hev_task_io_splice`. -/
def Splicing.settle {σ : Type} (s : Splicing σ) (stop : Bool) : Splicing σ :=
  match roundType s.resF s.resB with
  | none => { s with halted := some false }
  | some type => { s with
      pauses := s.pauses ++ [type]
      halted := if stop then some true else none }

/-- A round of `hev_task_io_splice`. -/
def Splicer.pass {σ : Type} (S : Splicer σ) (s : Splicing σ) (x : Round) :
    Option (Splicing σ) :=
  if s.halted = none then
    (S.call s.resF s.f x.f).bind fun f =>
      (S.call s.resB s.b x.b).bind fun b =>
        some ({ s with f := f.2, resF := f.1, b := b.2, resB := b.1 }.settle x.stop)
  else none

def Splicer.run {σ : Type} (S : Splicer σ) (s : Splicing σ) (xs : List Round) :
    Option (Splicing σ) :=
  runSteps S.pass s xs

/-! ### What relaying means -/

/-- A direction with a last result and the bytes that it holds. -/
structure Direction.Sound {σ : Type} (d : Direction σ) (res : Int) (held : List Byte) (cap : ℕ) :
    Prop where
  /-- What has been read is sent or held, in order. -/
  stream : d.received = d.sent ++ held
  held_le : held.length ≤ cap
  going : 0 ≤ res → d.broken = false ∧ d.shutdowns = []
  /-- The direction is over because a write has failed, or because everything is sent and the
  destination was shut down behind it. -/
  closed : res < 0 → d.broken = true ∧ d.shutdowns = [] ∨
    d.broken = false ∧ d.ended = true ∧ d.sent = d.received ∧ d.shutdowns = [d.received]
  /-- A call that has moved nothing on was refused by the end it needs. -/
  blocked : res = 0 → d.blocked = some .destination ∧ held ≠ [] ∨
    d.blocked = some .source ∧ held = []

/-- The loop with the bytes that its two directions hold. -/
structure Splicing.Sound {σ : Type} (s : Splicing σ) (heldF heldB : List Byte) (cap : ℕ) :
    Prop where
  f : s.f.Sound s.resF heldF cap
  b : s.b.Sound s.resB heldB cap
  /-- It has not gone round more often without waiting than bytes were sent. -/
  busy : s.pauses.count .yield ≤ s.f.sent.length + s.b.sent.length
  waits : s.pauses.getLast? = some .waitio → s.resF ≤ 0 ∧ s.resB ≤ 0
  halted : s.halted = some false → s.resF < 0 ∧ s.resB < 0

/-- A round sends the bytes `f` and `b`, and something if it goes on without waiting. -/
def Splicing.Sends {σ : Type} (s s' : Splicing σ) : Prop :=
  ∃ f b, s'.f.sent = s.f.sent ++ f ∧ s'.b.sent = s.b.sent ++ b ∧
    (s'.pauses = s.pauses ++ [.yield] → f ≠ [] ∨ b ≠ [])

theorem roundType_eq_none {resF resB : Int} (h : roundType resF resB = none) :
    resF < 0 ∧ resB < 0 := by
  unfold roundType at h
  split_ifs at h with hpos hand
  have hF : resF ≠ 0 := by
    rintro rfl
    simp at hand
  have hB : resB ≠ 0 := by
    rintro rfl
    simp at hand
  omega

theorem roundType_eq_yield {resF resB : Int} (h : roundType resF resB = some .yield) :
    0 < resF ∨ 0 < resB := by
  unfold roundType at h
  split_ifs at h with hpos hand
  · exact hpos
  · cases h

theorem roundType_eq_waitio {resF resB : Int} (h : roundType resF resB = some .waitio) :
    resF ≤ 0 ∧ resB ≤ 0 := by
  unfold roundType at h
  split_ifs at h with hpos hand
  · cases h
  · omega

section fifo
variable {cap : ℕ} {d d' : Direction (List Byte)} {res res' : Int}

/-- The first half of a call takes bytes in, and says why if it does not. -/
theorem fifo_read {r : Readv} (hcap : 0 < cap) (hstream : d.received = d.sent ++ d.store)
    (hle : d.store.length ≤ cap) (h : (fifo cap).read d r = some (res, d')) :
    d'.received = d'.sent ++ d'.store ∧ d'.store.length ≤ cap ∧ d'.sent = d.sent ∧
      d'.broken = d.broken ∧ d'.shutdowns = d.shutdowns ∧ (res < 0 → d'.ended = true) ∧
      (res = 0 → d'.blocked = some .source) ∧ (0 < res → d'.store ≠ []) := by
  unfold Splicer.read at h
  split_ifs at h with hreads
  · cases r with
    | data bytes =>
        simp only at h
        split_ifs at h with hbytes
        rw [not_or, not_lt] at hbytes
        have hroom : bytes.length ≤ cap - d.store.length := hbytes.2
        cases h
        refine ⟨?_, ?_, rfl, rfl, rfl, by simp, by simp, ?_⟩
        · simp [fifo, hstream]
        · simp only [fifo, List.length_append]
          omega
        · simp [fifo, hbytes.1]
    | again =>
        cases h
        exact ⟨hstream, hle, rfl, rfl, rfl, by simp, fun _ => rfl, by simp⟩
    | eof =>
        cases h
        exact ⟨hstream, hle, rfl, rfl, rfl, fun _ => rfl, by simp, by simp⟩
    | error =>
        cases h
        exact ⟨hstream, hle, rfl, rfl, rfl, fun _ => rfl, by simp, by simp⟩
  · cases h
    refine ⟨hstream, hle, rfl, rfl, rfl, by simp, by simp, ?_⟩
    -- the store is full
    intro _ hnil
    have hlen : d.store.length = 0 := by simpa using hnil
    simp [fifo, hlen, hcap] at hreads

theorem Direction.Sound.call {x : Readv × Writev} (hcap : 0 < cap) (h : d.Sound res d.store cap)
    (hx : (fifo cap).call res d x = some (res', d')) :
    d'.Sound res' d'.store cap ∧ ∃ bytes, d'.sent = d.sent ++ bytes ∧ (0 < res' → bytes ≠ []) := by
  unfold Splicer.call at hx
  split_ifs at hx with hres
  · obtain ⟨⟨res₁, d₁⟩, hread, hx⟩ := Option.bind_eq_some_iff.mp hx
    obtain ⟨hstream, hle, hsent, hbroken, hshut, hneg, hzero, hpos⟩ :=
      fifo_read hcap h.stream h.held_le hread
    obtain ⟨hbroken₀, hshut₀⟩ := h.going hres
    rw [hbroken₀] at hbroken
    rw [hshut₀] at hshut
    rw [← hsent]
    simp only [Splicer.write] at hx
    split_ifs at hx with hwrites hres₁
    · have hne : d₁.store ≠ [] := by simpa [fifo] using hwrites
      cases hout : x.2 with
      | wrote n =>
          simp only [hout] at hx
          split_ifs at hx with hn
          rw [not_or, not_lt] at hn
          have hn₁ : n ≤ d₁.store.length := hn.2
          cases hx
          refine ⟨⟨?_, ?_, fun _ => ⟨hbroken, hshut⟩, by simp, by simp⟩, d₁.store.take n, rfl, fun _ => ?_⟩
          · simp [fifo, hstream]
          · simp only [fifo, List.length_drop]
            omega
          · simp [hn.1, hne]
      | again =>
          simp only [hout] at hx
          cases hx
          exact ⟨⟨hstream, hle, fun _ => ⟨hbroken, hshut⟩, by simp, fun _ => .inl ⟨rfl, hne⟩⟩,
            [], (List.append_nil _).symm, by simp⟩
      | stop =>
          simp only [hout] at hx
          cases hx
          exact ⟨⟨hstream, hle, by simp, fun _ => .inl ⟨rfl, hshut⟩, by simp⟩,
            [], (List.append_nil _).symm, by simp⟩
    -- nothing is held, so the read has given nothing
    all_goals have hnil : d₁.store = [] := by simpa [fifo] using hwrites
    · cases hx
      have hall : d₁.sent = d₁.received := by rw [hstream, hnil, List.append_nil]
      refine ⟨⟨hstream, hle, ?_, fun _ => .inr ⟨hbroken, hneg hres₁, hall, ?_⟩, ?_⟩,
        [], (List.append_nil _).symm, ?_⟩
      · omega
      · simp [hshut, hall]
      · omega
      · omega
    · cases hx
      refine ⟨⟨hstream, hle, fun _ => ⟨hbroken, hshut⟩, ?_, ?_⟩, [],
        (List.append_nil _).symm, ?_⟩
      · omega
      · exact fun hz => .inr ⟨hzero hz, hnil⟩
      · exact fun hp => absurd hnil (hpos hp)
  · cases hx
    refine ⟨h, [], (List.append_nil _).symm, ?_⟩
    omega

end fifo

namespace Splicing.Sound
variable {cap : ℕ} {s s' : Splicing (List Byte)}

theorem start (cap : ℕ) : (Splicing.start ([] : List Byte) []).Sound [] [] cap := by
  have hd : (Direction.start ([] : List Byte)).Sound 1 [] cap :=
    ⟨rfl, Nat.zero_le _, fun _ => ⟨rfl, rfl⟩, by simp, by simp⟩
  exact ⟨hd, hd, Nat.zero_le _, by simp [Splicing.start], by simp [Splicing.start]⟩

theorem pass {x : Round} (hcap : 0 < cap) (h : s.Sound s.f.store s.b.store cap)
    (hx : (fifo cap).pass s x = some s') : s'.Sound s'.f.store s'.b.store cap ∧ s.Sends s' := by
  unfold Splicer.pass at hx
  split_ifs at hx
  obtain ⟨⟨resF, f⟩, hf, hx⟩ := Option.bind_eq_some_iff.mp hx
  obtain ⟨⟨resB, b⟩, hb, hx⟩ := Option.bind_eq_some_iff.mp hx
  obtain ⟨hf, bytesF, hsentF, hposF⟩ := h.f.call hcap hf
  obtain ⟨hb, bytesB, hsentB, hposB⟩ := h.b.call hcap hb
  have hbusy := h.busy
  have hlenF := congrArg List.length hsentF
  have hlenB := congrArg List.length hsentB
  rw [List.length_append] at hlenF hlenB
  cases hx
  unfold settle
  cases htype : roundType resF resB with
  | none =>
      obtain ⟨hresF, hresB⟩ := roundType_eq_none htype
      refine ⟨⟨hf, hb, ?_, fun _ => ⟨hresF.le, hresB.le⟩, fun _ => ⟨hresF, hresB⟩⟩,
        bytesF, bytesB, hsentF, hsentB, by simp⟩
      show s.pauses.count .yield ≤ f.sent.length + b.sent.length
      omega
  | some type =>
      have hsends : type = .yield → bytesF ≠ [] ∨ bytesB ≠ [] := by
        rintro rfl
        exact (roundType_eq_yield htype).imp hposF hposB
      refine ⟨⟨hf, hb, ?_, ?_, ?_⟩, bytesF, bytesB, hsentF, hsentB, fun hp => hsends (by simpa using hp)⟩
      · simp only [List.count_append]
        cases type with
        | yield =>
            have hone : [YieldType.yield].count .yield = 1 := rfl
            have hpos := (hsends rfl).imp List.length_pos_of_ne_nil List.length_pos_of_ne_nil
            omega
        | waitio =>
            have hzero : [YieldType.waitio].count .yield = 0 := rfl
            omega
      · intro hlast
        rw [List.getLast?_concat, Option.some_inj] at hlast
        exact roundType_eq_waitio (hlast ▸ htype)
      · intro hhalted
        simp only at hhalted
        split_ifs at hhalted
        cases hhalted

theorem run {xs : List Round} (hcap : 0 < cap)
    (hs : (fifo cap).run (.start [] []) xs = some s) : s.Sound s.f.store s.b.store cap :=
  runSteps_invariant (fun s => s.Sound s.f.store s.b.store cap) (fun h hx => (h.pass hcap hx).1)
    (start cap) hs

end Splicing.Sound

/-! ### One store follows another -/

/-- `T` can follow `S` between related stores.  Where `S` asks its source and `T` does not, the read
can give no bytes and the result is that of the write. -/
structure Splicer.Sim {σ τ : Type} (S : Splicer σ) (T : Splicer τ) (R : σ → τ → Prop) : Prop where
  reads : ∀ {s t}, R s t → T.reads t = true → S.reads s = true
  full : ∀ {s t}, R s t → S.reads s = true → T.reads t = false →
    S.room s = 0 ∧ T.writes t = true
  room : ∀ {s t}, R s t → S.room s ≤ T.room t
  fill : ∀ {s t bs}, R s t → bs.length ≤ S.room s → R (S.fill s bs) (T.fill t bs)
  writes : ∀ {s t}, R s t → S.writes s = T.writes t
  offer : ∀ {s t}, R s t → S.offer s <+: T.offer t
  drain : ∀ {s t n}, R s t → n ≤ (S.offer s).length → R (S.drain s n) (T.drain t n)

/-- Two directions that have done the same.  The first may know more of its source. -/
structure Direction.Rel {σ τ : Type} (R : σ → τ → Prop) (d : Direction σ) (e : Direction τ) :
    Prop where
  store : R d.store e.store
  received : d.received = e.received
  sent : d.sent = e.sent
  ended : e.ended = true → d.ended = true
  broken : d.broken = e.broken
  shutdowns : d.shutdowns = e.shutdowns
  blocked : d.blocked = e.blocked

structure Splicing.Rel {σ τ : Type} (R : σ → τ → Prop) (s : Splicing σ) (t : Splicing τ) :
    Prop where
  f : s.f.Rel R t.f
  b : s.b.Rel R t.b
  resF : s.resF = t.resF
  resB : s.resB = t.resB
  pauses : s.pauses = t.pauses
  halted : s.halted = t.halted

section Rel
variable {σ τ υ : Type} {R : σ → τ → Prop} {R' : τ → υ → Prop} {Q : σ → υ → Prop}

theorem Direction.Rel.trans {d : Direction σ} {e : Direction τ} {g : Direction υ}
    (hQ : ∀ s t u, R s t → R' t u → Q s u) (h : d.Rel R e) (h' : e.Rel R' g) : d.Rel Q g where
  store := hQ _ _ _ h.store h'.store
  received := h.received.trans h'.received
  sent := h.sent.trans h'.sent
  ended := fun hg => h.ended (h'.ended hg)
  broken := h.broken.trans h'.broken
  shutdowns := h.shutdowns.trans h'.shutdowns
  blocked := h.blocked.trans h'.blocked

theorem Splicing.Rel.trans {s : Splicing σ} {t : Splicing τ} {u : Splicing υ}
    (hQ : ∀ s t u, R s t → R' t u → Q s u) (h : s.Rel R t) (h' : t.Rel R' u) : s.Rel Q u where
  f := h.f.trans hQ h'.f
  b := h.b.trans hQ h'.b
  resF := h.resF.trans h'.resF
  resB := h.resB.trans h'.resB
  pauses := h.pauses.trans h'.pauses
  halted := h.halted.trans h'.halted

theorem Direction.Rel.sound {d : Direction σ} {e : Direction τ} {res : Int} {held : List Byte}
    {cap : ℕ} (h : d.Rel R e) (he : e.Sound res held cap) : d.Sound res held cap where
  stream := by rw [h.received, h.sent, he.stream]
  held_le := he.held_le
  going := by rw [h.broken, h.shutdowns]; exact he.going
  closed := by
    intro hres
    rw [h.broken, h.shutdowns, h.sent, h.received]
    obtain hclosed | ⟨hbroken, hended, hclosed⟩ := he.closed hres
    · exact .inl hclosed
    · exact .inr ⟨hbroken, h.ended hended, hclosed⟩
  blocked := by rw [h.blocked]; exact he.blocked

theorem Splicing.Rel.sound {s : Splicing σ} {t : Splicing τ} {heldF heldB : List Byte} {cap : ℕ}
    (h : s.Rel R t) (ht : t.Sound heldF heldB cap) : s.Sound heldF heldB cap where
  f := h.resF ▸ h.f.sound ht.f
  b := h.resB ▸ h.b.sound ht.b
  busy := by rw [h.pauses, h.f.sent, h.b.sent]; exact ht.busy
  waits := by rw [h.pauses, h.resF, h.resB]; exact ht.waits
  halted := by rw [h.halted, h.resF, h.resB]; exact ht.halted

theorem Splicing.Rel.sends {s s' : Splicing σ} {t t' : Splicing τ} (h : s.Rel R t) (h' : s'.Rel R t')
    (ht : t.Sends t') : s.Sends s' := by
  obtain ⟨f, b, hf, hb, hpos⟩ := ht
  rw [← h.f.sent, ← h'.f.sent] at hf
  rw [← h.b.sent, ← h'.b.sent] at hb
  exact ⟨f, b, hf, hb, by rwa [h.pauses, h'.pauses]⟩

theorem Splicing.Rel.start {f b : σ} {f' b' : τ} (hf : R f f') (hb : R b b') :
    (Splicing.start f b).Rel R (Splicing.start f' b') :=
  ⟨⟨hf, rfl, rfl, id, rfl, rfl, rfl⟩, ⟨hb, rfl, rfl, id, rfl, rfl, rfl⟩, rfl, rfl, rfl, rfl⟩

end Rel

namespace Splicer.Sim
variable {σ τ : Type} {S : Splicer σ} {T : Splicer τ} {R : σ → τ → Prop} (h : S.Sim T R)
  {d d' : Direction σ} {e : Direction τ} {res res' : Int}
include h

/-- The first halves agree, unless a full store makes the second halves decide. -/
theorem read {r : Readv} (hd : d.Rel R e) (hr : S.read d r = some (res, d')) :
    ∃ res₁ e', T.read e r = some (res₁, e') ∧ d'.Rel R { e' with blocked := d'.blocked } ∧
      (T.writes e'.store = true ∨ res = res₁ ∧ d'.blocked = e'.blocked) := by
  unfold Splicer.read at hr ⊢
  by_cases hT : T.reads e.store = true
  · rw [if_pos (h.reads hd.store hT)] at hr
    rw [if_pos hT]
    cases r with
    | data bytes =>
        simp only at hr ⊢
        split_ifs at hr with hbytes
        rw [not_or, not_lt] at hbytes
        have hroom : ¬ (bytes = [] ∨ T.room e.store < bytes.length) :=
          not_or.mpr ⟨hbytes.1, not_lt.mpr (hbytes.2.trans (h.room hd.store))⟩
        cases hr
        refine ⟨1, _, if_neg hroom, { hd with
          store := h.fill hd.store hbytes.2
          received := congrArg (· ++ bytes) hd.received
          blocked := rfl }, .inr ⟨rfl, rfl⟩⟩
    | again =>
        cases hr
        exact ⟨0, _, rfl, { hd with blocked := rfl }, .inr ⟨rfl, rfl⟩⟩
    | eof =>
        cases hr
        exact ⟨-1, _, rfl, { hd with ended := fun _ => rfl, blocked := rfl }, .inr ⟨rfl, rfl⟩⟩
    | error =>
        cases hr
        exact ⟨-1, _, rfl, { hd with ended := fun _ => rfl, blocked := rfl }, .inr ⟨rfl, rfl⟩⟩
  · rw [if_neg hT]
    rw [Bool.not_eq_true] at hT
    split_ifs at hr with hS
    · obtain ⟨hroom, hwrites⟩ := h.full hd.store hS hT
      cases r with
      | data bytes =>
          simp only [hroom] at hr
          split_ifs at hr with hbytes
          rw [not_or, not_lt, Nat.le_zero, List.length_eq_zero_iff] at hbytes
          exact absurd hbytes.2 hbytes.1
      | again =>
          cases hr
          exact ⟨1, _, rfl, { hd with blocked := rfl }, .inl hwrites⟩
      | eof =>
          cases hr
          exact ⟨1, _, rfl, { hd with ended := fun _ => rfl, blocked := rfl }, .inl hwrites⟩
      | error =>
          cases hr
          exact ⟨1, _, rfl, { hd with ended := fun _ => rfl, blocked := rfl }, .inl hwrites⟩
    · cases hr
      exact ⟨1, _, rfl, { hd with blocked := rfl }, .inr ⟨rfl, rfl⟩⟩

theorem write {r : Writev} {res₁ : Int} (hd : d.Rel R { e with blocked := d.blocked })
    (hres : T.writes e.store = true ∨ res = res₁ ∧ d.blocked = e.blocked)
    (hr : S.write res d r = some (res', d')) :
    ∃ e', T.write res₁ e r = some (res', e') ∧ d'.Rel R e' := by
  unfold Splicer.write at hr ⊢
  rw [h.writes hd.store] at hr
  simp only at hr
  by_cases hT : T.writes e.store = true
  · rw [if_pos hT] at hr ⊢
    cases r with
    | wrote n =>
        simp only at hr ⊢
        split_ifs at hr with hn
        rw [not_or, not_lt] at hn
        have hoffer := h.offer hd.store
        have hlen : ¬ (n = 0 ∨ (T.offer e.store).length < n) :=
          not_or.mpr ⟨hn.1, not_lt.mpr (hn.2.trans hoffer.length_le)⟩
        cases hr
        refine ⟨_, if_neg hlen, { hd with store := h.drain hd.store hn.2, sent := ?_, blocked := rfl }⟩
        -- what is written lies in the shorter of the two offers
        obtain ⟨rest, hrest⟩ := hoffer
        show d.sent ++ (S.offer d.store).take n = e.sent ++ (T.offer e.store).take n
        rw [show T.offer e.store = S.offer d.store ++ rest from hrest.symm,
          List.take_append_of_le_length hn.2, hd.sent]
    | again =>
        cases hr
        exact ⟨_, rfl, { hd with blocked := rfl }⟩
    | stop =>
        cases hr
        exact ⟨_, rfl, { hd with broken := rfl, blocked := rfl }⟩
  · obtain ⟨rfl, hblocked⟩ := hres.resolve_left hT
    rw [if_neg hT] at hr ⊢
    split_ifs at hr ⊢ with hneg
    · cases hr
      refine ⟨_, rfl, { hd with shutdowns := ?_, blocked := hblocked }⟩
      show d.shutdowns ++ [d.sent] = e.shutdowns ++ [e.sent]
      rw [hd.shutdowns, hd.sent]
    · cases hr
      exact ⟨_, rfl, { hd with blocked := hblocked }⟩

theorem call {x : Readv × Writev} (hd : d.Rel R e) (hx : S.call res d x = some (res', d')) :
    ∃ e', T.call res e x = some (res', e') ∧ d'.Rel R e' := by
  unfold Splicer.call at hx ⊢
  split_ifs at hx ⊢
  · obtain ⟨⟨res₁, d₁⟩, hread, hx⟩ := Option.bind_eq_some_iff.mp hx
    obtain ⟨res₂, e₁, hread', hd₁, hres⟩ := h.read hd hread
    obtain ⟨e', hwrite, hd'⟩ := h.write hd₁ hres hx
    exact ⟨e', Option.bind_eq_some_iff.mpr ⟨(res₂, e₁), hread', hwrite⟩, hd'⟩
  · cases hx
    exact ⟨e, rfl, hd⟩

theorem pass {s s' : Splicing σ} {t : Splicing τ} {x : Round} (hst : s.Rel R t)
    (hx : S.pass s x = some s') : ∃ t', T.pass t x = some t' ∧ s'.Rel R t' := by
  unfold Splicer.pass at hx ⊢
  rw [← hst.halted, ← hst.resF, ← hst.resB]
  split_ifs at hx ⊢
  obtain ⟨⟨resF, f⟩, hf, hx⟩ := Option.bind_eq_some_iff.mp hx
  obtain ⟨⟨resB, b⟩, hb, hx⟩ := Option.bind_eq_some_iff.mp hx
  obtain ⟨f', hf', hfR⟩ := h.call hst.f hf
  obtain ⟨b', hb', hbR⟩ := h.call hst.b hb
  refine ⟨_, Option.bind_eq_some_iff.mpr ⟨(resF, f'), hf',
    Option.bind_eq_some_iff.mpr ⟨(resB, b'), hb', rfl⟩⟩, ?_⟩
  cases hx
  unfold Splicing.settle
  cases roundType resF resB with
  | none => exact ⟨hfR, hbR, rfl, rfl, hst.pauses, rfl⟩
  | some type => exact ⟨hfR, hbR, rfl, rfl, congrArg (· ++ [type]) hst.pauses, rfl⟩

theorem run {s s' : Splicing σ} {t : Splicing τ} {xs : List Round} (hst : s.Rel R t)
    (hs : S.run s xs = some s') : ∃ t', T.run t xs = some t' ∧ s'.Rel R t' := by
  refine runSteps_simulation (Splicing.Rel R) ?_ hst hs
  intro s t x s' hst hx
  exact h.pass hst hx

end Splicer.Sim

/-! ### The two stores and the list -/

/-- A circular buffer of `cap` bytes that holds the list. -/
def CircularBuffer.Holds (cap : ℕ) (c : CircularBuffer) (l : List Byte) : Prop :=
  c.Valid ∧ c.maxSize = cap ∧ c.held = l

theorem CircularBuffer.holds_new {cap : ℕ} (h₀ : 0 < cap) (h : cap < 2 ^ 63) (m : Mem) :
    (CircularBuffer.new cap m).Holds cap [] :=
  ⟨new_valid m h₀ h, rfl, rfl⟩

namespace CircularBuffer.Holds
variable {cap : ℕ} {c : CircularBuffer} {l : List Byte} (h : c.Holds cap l)
include h

theorem useSize_eq : c.useSize = l.length := by
  rw [← c.length_held, h.2.2]

theorem length_le : l.length ≤ cap := by
  rw [← h.useSize_eq, ← h.2.1]
  exact h.1.use_le

theorem reads_eq : circular.reads c = (fifo cap).reads l := by
  have hle := h.length_le
  have hnil : c.writing = [] ↔ l.length = cap := by
    rw [writing_eq_nil, h.useSize_eq, h.2.1]
  rw [Bool.eq_iff_iff]
  simp only [circular, fifo, Bool.not_eq_true', List.isEmpty_eq_false_iff, ne_eq, hnil,
    decide_eq_true_eq]
  omega

theorem room_eq : circular.room c = (fifo cap).room l := by
  show (iovCells c.writing).length = cap - l.length
  rw [h.1.length_writing, h.useSize_eq, h.2.1]

theorem fill {bs : List Byte} (hbs : bs.length ≤ cap - l.length) :
    (c.fill bs).Holds cap (l ++ bs) := by
  rw [← h.2.1, ← h.useSize_eq] at hbs
  obtain ⟨hvalid, hheld⟩ := h.1.fill hbs
  exact ⟨hvalid, h.2.1, by rw [hheld, h.2.2]⟩

theorem writes_eq : circular.writes c = (fifo cap).writes l := by
  have hnil : c.reading = [] ↔ l = [] := by
    rw [reading_eq_nil, h.useSize_eq, List.length_eq_zero_iff]
  rw [Bool.eq_iff_iff]
  simp only [circular, fifo, Bool.not_eq_true', List.isEmpty_eq_false_iff, ne_eq, hnil]

theorem offer_eq : circular.offer c = l := by
  show (iovCells c.reading).map c.data = l
  rw [h.1.iovCells_reading, ← h.2.2]
  rfl

theorem drain {n : ℕ} (hn : n ≤ l.length) : (c.readFinish n).Holds cap (l.drop n) := by
  obtain ⟨hvalid, hheld⟩ := h.1.readFinish (h.useSize_eq ▸ hn)
  exact ⟨hvalid, h.2.1, by rw [hheld, h.2.2]⟩

end CircularBuffer.Holds

theorem circular_sim (cap : ℕ) : circular.Sim (fifo cap) (CircularBuffer.Holds cap) where
  reads h := by rw [h.reads_eq]; exact id
  full h := by rw [h.reads_eq]; intro h₁ h₂; simp [h₁] at h₂
  room h := h.room_eq.le
  fill h hbs := h.fill (hbs.trans h.room_eq.le)
  writes h := h.writes_eq
  offer h := h.offer_eq ▸ List.prefix_rfl
  drain h hn := h.drain (h.offer_eq ▸ hn)

theorem fifo_sim_circular (cap : ℕ) :
    (fifo cap).Sim circular (fun l c => c.Holds cap l) where
  reads h := by rw [h.reads_eq]; exact id
  full h := by rw [h.reads_eq]; intro h₁ h₂; simp [h₁] at h₂
  room h := h.room_eq.ge
  fill h hbs := h.fill hbs
  writes h := h.writes_eq.symm
  offer h := h.offer_eq.symm ▸ List.prefix_rfl
  drain h hn := h.drain hn

/-- A pipe of `cap` bytes that holds the list; `wlen` counts it. -/
structure Pipe.Holds (cap : ℕ) (p : Pipe) (l : List Byte) : Prop where
  data_eq : p.data = l
  size_eq : p.size = cap
  wlen_eq : p.wlen = l.length
  length_le : l.length ≤ cap

theorem pipe_sim {cap : ℕ} (h₀ : 0 < cap) (hcap : cap < 2 ^ 64) :
    pipe.Sim (fifo cap) (Pipe.Holds cap) where
  reads _ _ := rfl
  full {p l} h _ hreads := by
    have hle := h.length_le
    have hfull : l.length = cap := by
      have : ¬ l.length < cap := by simpa [fifo] using hreads
      omega
    have hne : l ≠ [] := by
      rintro rfl
      simp at hfull
      omega
    refine ⟨?_, by simp [fifo, hne]⟩
    simp [pipe, h.data_eq, h.size_eq, hfull]
  room {p l} h := by
    show min p.blen (p.size - p.data.length) ≤ cap - l.length
    rw [h.data_eq, h.size_eq]
    exact Nat.min_le_right _ _
  fill {p l bs} h hbs := by
    have hroom : bs.length ≤ cap - l.length := by
      have := hbs.trans (Nat.min_le_right _ _)
      rwa [h.data_eq, h.size_eq] at this
    have hle := h.length_le
    refine ⟨congrArg (· ++ bs) h.data_eq, h.size_eq, ?_, ?_⟩
    · show sizeAdd p.wlen bs.length = (l ++ bs).length
      rw [h.wlen_eq, sizeAdd_eq (by omega), List.length_append]
    · show (l ++ bs).length ≤ cap
      rw [List.length_append]
      omega
  writes {p l} h := by
    rw [Bool.eq_iff_iff]
    simp [pipe, fifo, h.wlen_eq]
  offer {p l} h := by
    show p.data.take p.blen <+: l
    rw [h.data_eq]
    exact List.take_prefix _ _
  drain {p l n} h hn := by
    have hle := h.length_le
    have hn₁ : n ≤ l.length := by
      have : (p.data.take p.blen).length ≤ l.length := by
        rw [h.data_eq, List.length_take]
        exact Nat.min_le_right _ _
      exact le_trans hn this
    refine ⟨congrArg (·.drop n) h.data_eq, h.size_eq, ?_, ?_⟩
    · show sizeSub p.wlen n = (l.drop n).length
      rw [h.wlen_eq, sizeSub_eq hn₁ (by omega), List.length_drop]
    · show (l.drop n).length ≤ cap
      rw [List.length_drop]
      omega

/-! ### The results -/

/-- Six bytes one way through stores of four; then both sources end. -/
def sixBytes : List Round :=
  [⟨(.data [1, 2, 3], .wrote 2), (.again, .again), false⟩,
    ⟨(.data [4, 5, 6], .wrote 3), (.eof, .again), false⟩,
    ⟨(.eof, .wrote 1), (.again, .again), false⟩,
    ⟨(.eof, .again), (.again, .again), false⟩]

/-- With circular buffers the loop relays both directions, each round that goes on without waiting sends
something, and the loop stays inside the buffers. -/
theorem circular_relays {size : ℕ} (h₀ : 0 < size) (h : size < 2 ^ 63) (mF mB : Mem)
    {xs : List Round} {s : Splicing CircularBuffer}
    (hs : circular.run (.start (.new size mF) (.new size mB)) xs = some s) :
    s.Sound s.f.store.held s.b.store.held size ∧
      (∀ x s', circular.pass s x = some s' → s.Sends s') ∧
      ∀ c ∈ [s.f.store, s.b.store], ∀ i ∈ iovCells c.reading ++ iovCells c.writing, i < size := by
  have hstart := CircularBuffer.holds_new h₀ h
  obtain ⟨t, ht, hst⟩ := (circular_sim size).run (.start (hstart mF) (hstart mB)) hs
  have hf := hst.f.store
  have hb := hst.b.store
  have hsound := Splicing.Sound.run h₀ ht
  refine ⟨?_, fun x s' hx => ?_, ?_⟩
  · rw [hf.2.2, hb.2.2]
    exact hst.sound hsound
  · obtain ⟨t', ht', hst'⟩ := (circular_sim size).pass hst hx
    exact hst.sends hst' (hsound.pass h₀ ht').2
  · intro c hc
    rw [List.mem_cons, List.mem_singleton] at hc
    obtain rfl | rfl := hc
    · exact hf.2.1 ▸ hf.1.in_bounds
    · exact hb.2.1 ▸ hb.1.in_bounds

theorem circular_relays_six : ∃ s₀ s,
    circular.run (.start (.new 4 fun _ => 0) (.new 4 fun _ => 0)) (sixBytes.take 1) = some s₀ ∧
      (∀ x s₁, circular.pass s₀ x = some s₁ → s₀.Sends s₁) ∧
      circular.run (.start (.new 4 fun _ => 0) (.new 4 fun _ => 0)) sixBytes = some s ∧
      s.f.sent = [1, 2, 3, 4, 5, 6] ∧ s.halted = some false ∧
      s.Sound s.f.store.held s.b.store.held 4 := by
  have hfirst : (circular.run (.start (.new 4 fun _ => 0) (.new 4 fun _ => 0)) (sixBytes.take 1)).isSome := by
    decide +kernel
  have hrun : (circular.run (.start (.new 4 fun _ => 0) (.new 4 fun _ => 0)) sixBytes).map
      (fun s => (s.f.sent, s.halted)) = some ([1, 2, 3, 4, 5, 6], some false) := by decide +kernel
  obtain ⟨s₀, hs₀⟩ := Option.isSome_iff_exists.mp hfirst
  obtain ⟨s, hs, heq⟩ := Option.map_eq_some_iff.mp hrun
  rw [Prod.mk.injEq] at heq
  exact ⟨s₀, s, hs₀, (circular_relays (by decide) (by decide) _ _ hs₀).2.1, hs, heq.1, heq.2,
    (circular_relays (by decide) (by decide) _ _ hs).1⟩

/-- With pipes it relays as well, and circular buffers of the same size would do the same under the
same answers. -/
theorem pipe_agrees {size : ℕ} (h₀ : 0 < size) (h : size < 2 ^ 63) (blen : ℕ) (mF mB : Mem)
    {xs : List Round} {s : Splicing Pipe}
    (hs : pipe.run (.start (.init size blen) (.init size blen)) xs = some s) :
    s.Sound s.f.store.data s.b.store.data size ∧
      ∃ t, circular.run (.start (.new size mF) (.new size mB)) xs = some t ∧
        s.Rel (fun p c => p.data = c.held) t := by
  have hpipe : (Pipe.init size blen).Holds size [] := ⟨rfl, rfl, rfl, Nat.zero_le _⟩
  have hring := CircularBuffer.holds_new h₀ h
  obtain ⟨u, hu, hsu⟩ := (pipe_sim h₀ (by omega)).run (.start hpipe hpipe) hs
  obtain ⟨t, ht, hut⟩ := (fifo_sim_circular size).run (.start (hring mF) (hring mB)) hu
  refine ⟨?_, t, ht, hsu.trans (fun p l c hp hc => hp.data_eq.trans hc.2.2.symm) hut⟩
  rw [hsu.f.store.data_eq, hsu.b.store.data_eq]
  exact hsu.sound (Splicing.Sound.run h₀ hu)

theorem pipe_agrees_six : ∃ s t,
    pipe.run (.start (.init 4 4) (.init 4 4)) sixBytes = some s ∧ s.halted = some false ∧
      circular.run (.start (.new 4 fun _ => 0) (.new 4 fun _ => 0)) sixBytes = some t ∧
      s.Rel (fun p c => p.data = c.held) t := by
  have hrun : (pipe.run (.start (.init 4 4) (.init 4 4)) sixBytes).map (·.halted)
      = some (some false) := by decide +kernel
  obtain ⟨s, hs, hhalted⟩ := Option.map_eq_some_iff.mp hrun
  obtain ⟨-, t, ht, hrel⟩ := pipe_agrees (by decide) (by decide) 4 (fun _ => 0) (fun _ => 0) hs
  exact ⟨s, t, hs, hhalted, ht, hrel⟩

end HevTunnel
