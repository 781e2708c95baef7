import HevTunnel.Addr
import HevTunnel.DNSFormat
import HevTunnel.MappedDNS

/-! # The loops of the DNS message handler

What the two loops of `hev_mapped_dns_handle` do to a message in the format of `DNSFormat.lean`.

* `skipName_of_has` and `has_of_skipName`: the label loop walks over a name that lies inside the
  request, and over nothing else.
* `ask` is the question loop over a list of questions: a search for each question of type `A` and
  class `IN`.  `questions_of_has` says that the loop of the source does just this.
* `answers_of_le` and `answers_of_lt`: the answer loop appends a record of 16 bytes for every search
  that has found an index, if the response has room for all of them. -/

namespace HevTunnel

open DNS

/-- The bytes of a name after the label loop: dots instead of lengths. -/
def dotsBytes : List Label → List Byte
  | [] => [0]
  | l :: ls => 46 :: (l.bytes ++ dotsBytes ls)

theorem length_dotsBytes (ls : List Label) : (dotsBytes ls).length = (nameBytes ls).length := by
  induction ls with
  | nil => rfl
  | cons l ls ih => simp [dotsBytes, nameBytes, ih]

/-- Behind the first dot stands the name with dots between its labels. -/
theorem dotsBytes_cons (l : Label) (ls : List Label) :
    dotsBytes (l :: ls) = 46 :: (dotted (l :: ls) ++ [0]) := by
  induction ls generalizing l with
  | nil => rfl
  | cons l' ls ih =>
      rw [dotsBytes, ih l', show dotted (l :: l' :: ls) = l.bytes ++ 46 :: dotted (l' :: ls) from rfl]
      simp

/-- The string in memory is read up to its first `NUL`. -/
theorem cstrAt_of_has {m : Mem} {i n : ℕ} {bs : List Byte} (h : m.Has i (bs ++ [0]))
    (hn : bs.length < n) : cstrAt m i n = bs.takeWhile (· != 0) := by
  induction bs generalizing i n with
  | nil =>
      obtain ⟨n, rfl⟩ : ∃ k, n = k + 1 := ⟨n - 1, by rw [List.length_nil] at hn; omega⟩
      rw [cstrAt, if_pos h.1]
      rfl
  | cons b bs ih =>
      obtain ⟨n, rfl⟩ : ∃ k, n = k + 1 := ⟨n - 1, by rw [List.length_cons] at hn; omega⟩
      rw [List.length_cons] at hn
      rw [cstrAt, h.1, List.takeWhile_cons]
      by_cases hb : b = 0
      · simp [hb]
      · rw [if_neg hb, ih h.2 (by omega)]
        simp [hb]

/-- The string that a question is looked up as. -/
def DNS.Question.cname (q : Question) : CStr := cstrOf (dotted q.name)

namespace MappedDNS

/-- A search that has found an index: where the question stands, the question and the index. -/
structure Asked where
  offset : ℕ
  question : Question
  idx : Int

/-- The searches for the questions of a message, the first of which stands at `off`. -/
def ask (alloc : ℕ → Alloc) : MappedDNS → ℕ → List Question → Option (MappedDNS × List Asked)
  | self, _, [] => some (self, [])
  | self, off, q :: qs =>
      if q.AsksA then do
        let (self, idx) ← self.find q.cname (alloc qs.length)
        let (self, found) ← ask alloc self (off + q.size) qs
        pure (self, if 0 ≤ idx then ⟨off, q, idx⟩ :: found else found)
      else ask alloc self (off + q.size) qs

section parse
variable {qlen off : ℕ} {rb : Mem}

/-! ### The label loop -/

/-- The label loop puts dots into a name that lies inside the request. -/
theorem skipName_of_has {ls : List Label} {n : ℕ} (h : rb.Has off (nameBytes ls))
    (hlen : off + (nameBytes ls).length ≤ qlen) (hn : ls.length < n) :
    ∃ rb', skipName qlen n rb off = (rb', some (off + (nameBytes ls).length - 1)) ∧
      rb'.Has off (dotsBytes ls) ∧
      ∀ i, i < off ∨ off + (nameBytes ls).length ≤ i → rb' i = rb i := by
  induction ls generalizing off rb n with
  | nil =>
      obtain ⟨n, rfl⟩ : ∃ k, n = k + 1 := ⟨n - 1, by rw [List.length_nil] at hn; omega⟩
      exact ⟨rb, by rw [skipName, if_pos h.1]; rfl, h, fun _ _ => rfl⟩
  | cons l ls ih =>
      obtain ⟨n, rfl⟩ : ∃ k, n = k + 1 := ⟨n - 1, by rw [List.length_cons] at hn; omega⟩
      have hpos := length_nameBytes_pos ls
      rw [length_nameBytes_cons] at hlen ⊢
      rw [List.length_cons] at hn
      rw [nameBytes, ← List.cons_append, Mem.has_append, List.length_cons] at h
      obtain ⟨⟨hbyte, hlabel⟩, hrest⟩ := h
      have hnext : off + (1 + l.bytes.length) = off + (l.bytes.length + 1) := by omega
      have hrest' : (rb.write off 46).Has (off + (1 + l.bytes.length)) (nameBytes ls) := by
        rw [hnext]
        exact hrest.congr (fun i hi _ => Mem.write_ne (by omega))
      obtain ⟨rb', hskip, hdots, hsame⟩ := ih hrest' (by omega) (by omega : ls.length < n)
      refine ⟨rb', ?_, ?_, ?_⟩
      · rw [skipName, hbyte, if_neg l.lengthByte_ne_zero]
        simp only [l.toNat_lengthByte]
        rw [if_neg (by omega), hskip]
        congr 2
        omega
      · rw [dotsBytes, ← List.cons_append, Mem.has_append, List.length_cons, ← hnext]
        refine ⟨⟨?_, hlabel.congr ?_⟩, hdots⟩
        · rw [hsame off (by omega), Mem.write, if_pos rfl]
        · intro i hi hi'
          rw [hsame i (by omega), Mem.write_ne (by omega)]
      · intro i hi
        rw [hsame i (by omega), Mem.write_ne (by omega)]

/-- What the label loop walks over is a name.  Unless it is empty, it lies inside the request. -/
theorem has_of_skipName {n stop : ℕ} {rb' : Mem} (h : skipName qlen n rb off = (rb', some stop)) :
    ∃ ls, rb.Has off (nameBytes ls) ∧ stop + 1 = off + (nameBytes ls).length ∧
      (ls = [] ∨ stop < qlen) := by
  induction n generalizing off rb with
  | zero =>
      rw [skipName] at h
      cases h
  | succ n ih =>
      simp only [skipName] at h
      split_ifs at h with hz hq
      · cases h
        exact ⟨[], ⟨hz, trivial⟩, rfl, .inl rfl⟩
      · cases h
      · obtain ⟨ls, hls, hstop, hin⟩ := ih h
        have hbyte : (rb off).toNat ≠ 0 := fun e => hz (UInt8.toNat_inj.mp e)
        have hlt := (rb off).toNat_lt
        let l : Label := ⟨(List.range (rb off).toNat).map (fun i => rb (off + 1 + i)),
          by simp; omega, by simp; omega⟩
        have hl : l.bytes.length = (rb off).toNat := by simp [l]
        have hnext : off + (1 + (rb off).toNat) = off + (l.bytes.length + 1) := by omega
        refine ⟨l :: ls, ?_, ?_, ?_⟩
        · rw [nameBytes, ← List.cons_append, Mem.has_append, List.length_cons, ← hnext]
          refine ⟨⟨?_, Mem.has_range rb (off + 1) _⟩, ?_⟩
          · apply UInt8.toNat_inj.mp
            rw [l.toNat_lengthByte, hl]
          · exact hls.congr (fun i hi _ => (Mem.write_ne (by omega)).symm)
        · rw [length_nameBytes_cons, hl]
          omega
        · have hpos := length_nameBytes_pos ls
          rcases hin with rfl | hin
          · refine .inr ?_
            simp only [nameBytes, List.length_singleton] at hstop
            omega
          · exact .inr hin

/-! ### The question loop -/

theorem readU16_of_has {v : UInt16} (h : rb.Has off (be16 v)) : readU16 rb off = v.toNat := by
  have hlt := v.toNat_lt
  rw [readU16, h.1, h.2.1]
  simp only [UInt8.toNat_ofNat']
  omega

theorem readU16_eq_one {v : UInt16} (h : rb.Has off (be16 v)) : readU16 rb off = 1 ↔ v = 1 := by
  rw [readU16_of_has h]
  exact ⟨fun h => UInt16.toNat_inj.mp h, fun h => by rw [h]; rfl⟩

/-- The string behind the first byte of a name with dots.  For the root name it is empty, since the
type `A` starts with a zero byte. -/
theorem questionName_of_has {q : Question} (hdots : rb.Has off (dotsBytes q.name))
    (htype : rb.Has (off + (nameBytes q.name).length) (be16 q.qtype)) (hq : q.AsksA)
    (hlen : off + (nameBytes q.name).length ≤ qlen) : questionName rb off qlen = q.cname := by
  apply CStr.ext
  show cstrAt rb (off + 1) qlen = (dotted q.name).takeWhile (· != 0)
  have hdlen := length_dotsBytes q.name
  cases hname : q.name with
  | nil =>
      rw [hname, hq.1] at htype
      obtain ⟨n, rfl⟩ : ∃ k, qlen = k + 1 :=
        ⟨qlen - 1, by have := length_nameBytes_pos q.name; omega⟩
      have hzero : rb (off + 1) = 0 := htype.1
      rw [cstrAt, if_pos hzero]
      rfl
  | cons l ls =>
      rw [hname, dotsBytes_cons] at hdots hdlen
      rw [hname] at hlen
      simp only [List.length_cons, List.length_append, List.length_nil] at hdlen
      exact cstrAt_of_has hdots.2 (by omega)

theorem net_find {self self' : MappedDNS} {name : CStr} {alloc : Alloc} {r : Int}
    (h : self.find name alloc = some (self', r)) : self'.net = self.net := by
  simp only [find, Option.bind_eq_bind, Option.bind_eq_some_iff] at h
  obtain ⟨⟨hit, slot⟩, -, h⟩ := h
  cases hit with
  | some p =>
      simp only [Option.bind_eq_some_iff] at h
      obtain ⟨node, -, h⟩ := h
      cases h
      rfl
  | none =>
      simp only at h
      split_ifs at h
      · cases h
        rfl
      all_goals
        simp only [addNode, insert, takeIndex, store, Option.bind_eq_bind,
          Option.bind_eq_some_iff, Option.pure_def, Option.some.injEq] at h
        obtain ⟨self₁, ⟨tree, -, rfl⟩, ⟨self₂, idx⟩, htake, self₃, hstore, h⟩ := h
        cases h
        split_ifs at htake hstore
        · cases htake
          obtain ⟨node, -, hstore⟩ := Option.bind_eq_some_iff.mp hstore
          cases hstore
          rfl
        · obtain ⟨nl, -, htake⟩ := Option.bind_eq_some_iff.mp htake
          obtain ⟨nf, -, htake⟩ := Option.bind_eq_some_iff.mp htake
          obtain ⟨tree', -, htake⟩ := Option.bind_eq_some_iff.mp htake
          cases htake
          obtain ⟨node, -, hstore⟩ := Option.bind_eq_some_iff.mp hstore
          cases hstore
          rfl

/-- The address of a search, in the form of the question loop. -/
def Asked.answer (net : BitVec 32) (a : Asked) : ℕ × BitVec 32 :=
  (a.offset, net ||| BitVec.ofInt 32 a.idx)

/-- The label loop at the first of some questions stops at the end of its name; type and class and the
other questions stay in place. -/
theorem skipName_question {q : Question} {qs : List Question}
    (h : rb.Has off (sectionBytes (q :: qs))) (hlen : off + sectionSize (q :: qs) ≤ qlen) :
    ∃ rb', skipName qlen (qlen + 1) rb off = (rb', some (off + (nameBytes q.name).length - 1)) ∧
      rb'.Has off (dotsBytes q.name) ∧ rb'.Has (off + (nameBytes q.name).length) (be16 q.qtype) ∧
      rb'.Has (off + (nameBytes q.name).length + 2) (be16 q.qclass) ∧
      rb'.Has (off + q.size) (sectionBytes qs) := by
  rw [sectionSize_cons, Question.size] at hlen
  rw [sectionBytes, List.flatMap_cons, Mem.has_append, q.length_bytes, Question.bytes,
    Mem.has_append, Mem.has_append] at h
  obtain ⟨⟨hname, htype, hclass⟩, hrest⟩ := h
  have hlabels := length_lt_nameBytes q.name
  obtain ⟨rb', hskip, hdots, hsame⟩ :=
    skipName_of_has (n := qlen + 1) hname (by omega : _ ≤ qlen) (by omega)
  refine ⟨rb', hskip, hdots, htype.congr (fun i hi _ => hsame i (.inr hi)), ?_, ?_⟩
  · exact hclass.congr (fun i hi _ => hsame i (.inr (le_of_add_le_left hi)))
  · apply hrest.congr
    intro i hi _
    rw [Question.size] at hi
    exact hsame i (.inr (by omega))

/-- The question loop goes through the questions of the message. -/
theorem questions_of_has {qs : List Question} (alloc : ℕ → Alloc) (self : MappedDNS)
    (out : List (ℕ × BitVec 32)) (h : rb.Has off (sectionBytes qs))
    (hlen : off + sectionSize qs ≤ qlen) :
    (questions qlen alloc qs.length self rb off out).map (fun r => (r.1, r.2.2)) =
      (ask alloc self off qs).map (fun r =>
        (r.1, some (off + sectionSize qs, out ++ r.2.map (Asked.answer self.net)))) := by
  induction qs generalizing self rb off out with
  | nil => simp [questions, ask, sectionSize]
  | cons q qs ih =>
      obtain ⟨rb', hskip, hdots, htype, hclass, hrest⟩ := skipName_question h hlen
      rw [sectionSize_cons, Question.size] at hlen
      have hpos := length_nameBytes_pos q.name
      have hstop : off + (nameBytes q.name).length - 1 + 1 = off + (nameBytes q.name).length := by
        omega
      have hnext : off + (nameBytes q.name).length + 4 = off + q.size := by
        rw [Question.size, Nat.add_assoc]
      have hlen' : off + q.size + sectionSize qs ≤ qlen := by
        rw [Question.size]
        omega
      rw [List.length_cons, questions, hskip]
      simp only [hstop]
      have hasks : (readU16 rb' (off + (nameBytes q.name).length) = 1 ∧
          readU16 rb' (off + (nameBytes q.name).length + 2) = 1) ↔ q.AsksA :=
        and_congr (readU16_eq_one htype) (readU16_eq_one hclass)
      rw [if_neg (by omega), ask, sectionSize_cons, hnext, ← Nat.add_assoc]
      by_cases hq : q.AsksA
      · rw [if_pos (hasks.mpr hq), if_pos hq, questionName_of_has hdots htype hq (by omega)]
        cases hf : self.find q.cname (alloc qs.length) with
        | none => rfl
        | some r =>
            obtain ⟨self', idx⟩ := r
            simp only [Option.bind_eq_bind, Option.bind_some]
            rw [ih _ _ hrest hlen', net_find hf]
            cases ask alloc self' (off + q.size) qs with
            | none => rfl
            | some r =>
                simp only [Option.map_some, Option.bind_some, Option.pure_def]
                split_ifs with hidx
                · simp [Asked.answer]
                · rfl
      · rw [if_neg (fun h => hq (hasks.mp h)), if_neg hq, ih _ _ hrest hlen']

end parse

/-! ### The answer loop -/

/-- The record of an answer: a pointer as its owner, type `A`, class `IN`, one second to live and
the four bytes of the address. -/
def answerBytes (a : ℕ × BitVec 32) : List Byte :=
  [0xc0, UInt8.ofNat a.1, 0, 1, 0, 1, 0, 0, 0, 1, 0, 4] ++ (ipv4Bytes a.2).toList

@[simp] theorem length_answerBytes (a : ℕ × BitVec 32) : (answerBytes a).length = 16 := by
  simp [answerBytes]

/-- The response after one round of the answer loop. -/
def putAnswer (sb : Mem) (off : ℕ) (a : ℕ × BitVec 32) : Mem :=
  let sb := (sb.write off 0xc0).write (off + 1) (UInt8.ofNat a.1)
  let sb := writeU32 (writeU16 (writeU16 sb (off + 2) 1) (off + 4) 1) (off + 6) 1
  writeU32 (writeU16 sb (off + 10) 4) (off + 12) a.2.toNat

theorem has_putAnswer (sb : Mem) (off : ℕ) (a : ℕ × BitVec 32) :
    (putAnswer sb off a).Has off (answerBytes a) := by
  simp [Mem.Has, answerBytes, putAnswer, writeU16, writeU32, Mem.write, ipv4Bytes, Nat.add_assoc,
    Nat.div_div_eq_div_mul, Vector.toList]

theorem putAnswer_of_outside {sb : Mem} {off i : ℕ} (a : ℕ × BitVec 32)
    (hi : i < off ∨ off + 16 ≤ i) : putAnswer sb off a i = sb i := by
  simp only [putAnswer, writeU16, writeU32, Mem.write]
  repeat rw [if_neg (by omega)]

/-- The answer loop fails if the records do not fit. -/
theorem answers_of_lt {slen : ℕ} {out : List (ℕ × BitVec 32)} (hne : out ≠ []) (sb : Mem) {off : ℕ}
    (h : slen < off + 16 * out.length) : answers slen out sb off = none := by
  induction out generalizing sb off with
  | nil => exact absurd rfl hne
  | cons a out ih =>
      rw [List.length_cons] at h
      unfold answers
      by_cases hroom : slen ≤ off + 15
      · rw [if_pos hroom]
      · simp only [if_neg hroom]
        apply ih
        · rintro rfl
          rw [List.length_nil] at h
          omega
        · omega

/-- The answer loop appends the records if they fit. -/
theorem answers_of_le {slen : ℕ} {out : List (ℕ × BitVec 32)} (sb : Mem) {off : ℕ}
    (h : out = [] ∨ off + 16 * out.length ≤ slen) :
    ∃ sb', answers slen out sb off = some (sb', off + 16 * out.length) ∧
      sb'.Has off (out.flatMap answerBytes) ∧
      ∀ i, i < off ∨ off + 16 * out.length ≤ i → sb' i = sb i := by
  induction out generalizing sb off with
  | nil => exact ⟨sb, rfl, trivial, fun _ _ => rfl⟩
  | cons a out ih =>
      have hroom : off + 16 * (out.length + 1) ≤ slen := by simpa using h
      obtain ⟨sb', hans, hhas, hsame⟩ := ih (putAnswer sb off a)
        (.inr (show off + 16 + 16 * out.length ≤ slen by omega))
      rw [List.length_cons, show off + 16 * (out.length + 1) = off + 16 + 16 * out.length by omega]
      refine ⟨sb', ?_, ?_, ?_⟩
      · unfold answers
        rw [if_neg (by omega)]
        exact hans
      · rw [List.flatMap_cons, Mem.has_append, length_answerBytes]
        refine ⟨(has_putAnswer sb off a).congr ?_, hhas⟩
        intro i _ hi
        rw [length_answerBytes] at hi
        exact hsame i (.inl (by omega))
      · intro i hi
        rw [hsame i (by omega), putAnswer_of_outside a (by omega)]

end MappedDNS

end HevTunnel
