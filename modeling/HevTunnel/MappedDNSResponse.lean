import HevTunnel.MappedDNSParse
import HevTunnel.MappedDNSRun

/-! # The responses of the mapped DNS

`hev_mapped_dns_handle` copies the request, edits the header of the copy and appends a record for
every question that it has an address for.

* `Carries req qlen qs`: the request has a header and the questions `qs`, and anything behind them.
* `handle_of_carries` says what the handler makes of such a request, for every outcome of the
  searches.
* `handle_response` is the response when memory can be allocated.
* `owners_iff`: the owner of an answer is a pointer with an offset of one byte, so it is right for
  the questions that start before offset 256, and for others only by coincidence. -/

namespace HevTunnel
namespace MappedDNS

open DNS

/-- The request has a header and, inside its `qlen` bytes, the questions that the header counts. -/
structure Carries (req : Mem) (qlen : ℕ) (qs : List Question) : Prop where
  header : 12 ≤ qlen
  count : readU16 req 4 = qs.length
  few : qs.length ≤ 32
  has : req.Has 12 (sectionBytes qs)
  inside : 12 + sectionSize qs ≤ qlen

/-! ### Header fields -/

theorem readU16_writeU16 (m : Mem) (i : ℕ) {v : ℕ} (hv : v < 65536) :
    readU16 (writeU16 m i v) i = v := by
  have h₀ : writeU16 m i v i = UInt8.ofNat (v / 256) := by simp [writeU16, Mem.write]
  have h₁ : writeU16 m i v (i + 1) = UInt8.ofNat v := by simp [writeU16, Mem.write]
  rw [readU16, h₀, h₁, UInt8.toNat_ofNat', UInt8.toNat_ofNat']
  omega

theorem writeU16_of_outside {m : Mem} {i j v : ℕ} (h : j < i ∨ i + 2 ≤ j) :
    writeU16 m i v j = m j := by
  simp only [writeU16, Mem.write]
  rw [if_neg (by omega), if_neg (by omega)]

theorem readU16_congr {m m' : Mem} {i : ℕ} (h₀ : m' i = m i) (h₁ : m' (i + 1) = m (i + 1)) :
    readU16 m' i = readU16 m i := by
  rw [readU16, readU16, h₀, h₁]

theorem readU16_writeU16_of_outside {m : Mem} {i j v : ℕ} (h : j + 2 ≤ i ∨ i + 2 ≤ j) :
    readU16 (writeU16 m i v) j = readU16 m j :=
  readU16_congr (writeU16_of_outside (by omega)) (writeU16_of_outside (by omega))

theorem readU16_lt (m : Mem) (i : ℕ) : readU16 m i < 65536 := by
  have h₀ := (m i).toNat_lt
  have h₁ := (m (i + 1)).toNat_lt
  unfold readU16
  omega

/-- `QR` is bit 15, `RD` bit 8 and `RA` bit 7. -/
theorem testBit_responseFlags (fl j : ℕ) : (responseFlags fl).testBit j =
    (fl.testBit j || decide (j = 15) || (decide (j = 7) && fl.testBit 8)) := by
  have hra : ((fl &&& 0x100) >>> 1).testBit j = (decide (j = 7) && fl.testBit 8) := by
    rw [Nat.testBit_shiftRight, Nat.testBit_and, show (0x100 : ℕ) = 2 ^ 8 from rfl,
      Nat.testBit_two_pow]
    by_cases hj : j = 7
    · simp [hj]
    · simp [hj, show ¬ 8 = 1 + j by omega]
  have hqr : (0x8000 : ℕ).testBit j = decide (j = 15) := by
    rw [show (0x8000 : ℕ) = 2 ^ 15 from rfl, Nat.testBit_two_pow]
    exact decide_eq_decide.mpr eq_comm
  rw [responseFlags, Nat.testBit_or, Nat.testBit_or, hra, hqr]

theorem responseFlags_lt {fl : ℕ} (h : fl < 65536) : responseFlags fl < 65536 := by
  apply Nat.lt_pow_two_of_testBit (n := 16)
  intro j hj
  rw [testBit_responseFlags, Nat.testBit_lt_two_pow (lt_of_lt_of_le h
    (Nat.pow_le_pow_right (by decide) hj : 2 ^ 16 ≤ 2 ^ j))]
  simp [show j ≠ 15 by omega, show j ≠ 7 by omega]

/-! ### The whole message -/

/-- The response `sb` to the questions `qs` with the given answers. -/
structure Responds (req sb : Mem) (qs : List Question) (answers : List (ℕ × BitVec 32)) : Prop where
  id : readU16 sb 0 = readU16 req 0
  flags : readU16 sb 2 = responseFlags (readU16 req 2)
  qdcount : readU16 sb 4 = readU16 req 4
  ancount : readU16 sb 6 = answers.length
  nscount : readU16 sb 8 = 0
  arcount : readU16 sb 10 = 0
  questions : ∀ i, 12 ≤ i → i < 12 + sectionSize qs → sb i = req i
  records : sb.Has (12 + sectionSize qs) (answers.flatMap answerBytes)

theorem length_ask {alloc : ℕ → Alloc} {d d' : MappedDNS} {off : ℕ} {qs : List Question}
    {found : List Asked} (h : ask alloc d off qs = some (d', found)) : found.length ≤ qs.length := by
  induction qs generalizing d off d' found with
  | nil =>
      cases h
      rfl
  | cons q qs ih =>
      rw [ask] at h
      split_ifs at h with hq
      · simp only [Option.bind_eq_bind, Option.bind_eq_some_iff, Option.pure_def,
          Option.some.injEq, Prod.mk.injEq] at h
        obtain ⟨⟨d₁, idx⟩, -, ⟨d₂, rest⟩, hrest, rfl, rfl⟩ := h
        have := ih hrest
        rw [List.length_cons]
        simp only
        split_ifs
        · rw [List.length_cons]
          omega
        · omega
      · have := ih h
        rw [List.length_cons]
        omega

section handle
variable {req : Mem} {qlen slen : ℕ} {qs : List Question}

/-- The copy of the request, with `ns` and `ar` set to zero. -/
def copied (req : Mem) (qlen : ℕ) (res : Mem) : Mem :=
  writeU16 (writeU16 (fun i => if i < qlen then req i else res i) 8 0) 10 0

/-- The end of `hev_mapped_dns_handle`: the answers, the flags and the number of answers. -/
def finish (sb : Mem) (fl slen : ℕ) : Option (ℕ × List (ℕ × BitVec 32)) → Option (Mem × ℕ)
  | none => none
  | some (off, out) => (answers slen out sb off).map (fun r =>
      (writeU16 (writeU16 r.1 2 (responseFlags fl)) 6 out.length, r.2))

theorem handle_eq (d : MappedDNS) (res : Mem) (alloc : ℕ → Alloc) (hlen : qlen ≤ slen) (hq : 4 ≤ qlen)
    (hqd : readU16 req 4 ≤ 32) :
    d.handle req qlen res slen alloc = (questions qlen alloc (readU16 req 4) d req 12 []).map
      (fun r => ⟨r.1, r.2.1, finish (copied req qlen res) (readU16 req 2) slen r.2.2⟩) := by
  have hfl : readU16 (fun i => if i < qlen then req i else res i) 2 = readU16 req 2 :=
    readU16_congr (if_pos (by omega)) (if_pos (by omega))
  unfold handle
  simp only [hfl]
  rw [if_neg (by omega), if_neg (by omega)]
  rcases questions qlen alloc (readU16 req 4) d req 12 [] with _ | ⟨d', rb, _ | ⟨off, out⟩⟩
  · rfl
  · rfl
  · simp only [Option.bind_eq_bind, Option.bind_some, Option.map_some, finish, copied]
    cases answers slen out _ off <;> rfl

/-- The header and the questions are copied, the edited fields have their values, and the records
follow. -/
theorem responds_finish (hc : Carries req qlen qs) {res : Mem} {out : List (ℕ × BitVec 32)} {sb : Mem}
    (hout : out.length ≤ 32) (hrec : sb.Has (12 + sectionSize qs) (out.flatMap answerBytes))
    (hsame : ∀ i < 12 + sectionSize qs, sb i = copied req qlen res i) :
    Responds req (writeU16 (writeU16 sb 2 (responseFlags (readU16 req 2))) 6 out.length) qs out := by
  have hheader := hc.header
  have hinside := hc.inside
  have hcopy : ∀ i, i < 8 ∨ 12 ≤ i → i < 12 + sectionSize qs → sb i = req i := by
    intro i hi hlt
    rw [hsame i hlt, copied, writeU16_of_outside (by omega), writeU16_of_outside (by omega)]
    exact if_pos (by omega)
  have hframe : ∀ i, i < 2 ∨ 4 ≤ i ∧ i < 6 ∨ 8 ≤ i →
      writeU16 (writeU16 sb 2 (responseFlags (readU16 req 2))) 6 out.length i = sb i := by
    intro i hi
    rw [writeU16_of_outside (by omega), writeU16_of_outside (by omega)]
  refine ⟨?_, ?_, ?_, readU16_writeU16 _ _ (by omega), ?_, ?_, ?_, ?_⟩
  · exact readU16_congr ((hframe 0 (by omega)).trans (hcopy 0 (by omega) (by omega)))
      ((hframe 1 (by omega)).trans (hcopy 1 (by omega) (by omega)))
  · rw [readU16_writeU16_of_outside (by omega),
      readU16_writeU16 _ _ (responseFlags_lt (readU16_lt req 2))]
  · exact readU16_congr ((hframe 4 (by omega)).trans (hcopy 4 (by omega) (by omega)))
      ((hframe 5 (by omega)).trans (hcopy 5 (by omega) (by omega)))
  · refine (readU16_congr ?_ ?_).trans
      (readU16_writeU16 (fun i => if i < qlen then req i else res i) 8 (by decide : 0 < 65536))
    · rw [hframe 8 (by omega), hsame 8 (by omega), copied, writeU16_of_outside (by omega)]
    · rw [hframe 9 (by omega), hsame 9 (by omega), copied, writeU16_of_outside (by omega)]
  · refine (readU16_congr ?_ ?_).trans (readU16_writeU16
      (writeU16 (fun i => if i < qlen then req i else res i) 8 0) 10 (by decide : 0 < 65536))
    · rw [hframe 10 (by omega), hsame 10 (by omega), copied]
    · rw [hframe 11 (by omega), hsame 11 (by omega), copied]
  · intro i hi hlt
    rw [hframe i (by omega), hcopy i (.inr hi) hlt]
  · exact hrec.congr (fun i hi _ => hframe i (by omega))

/-- What the handler makes of a request with questions: it meets a memory fault in a search, or it
refuses for lack of room, or it responds with the answers of the searches. -/
theorem handle_of_carries (d : MappedDNS) (res : Mem) (alloc : ℕ → Alloc)
    (hc : Carries req qlen qs) (hlen : qlen ≤ slen) :
    (ask alloc d 12 qs = none ∧ d.handle req qlen res slen alloc = none) ∨
    ∃ d' found rb, ask alloc d 12 qs = some (d', found) ∧
      ((found ≠ [] ∧ slen < 12 + sectionSize qs + 16 * found.length ∧
        d.handle req qlen res slen alloc = some ⟨d', rb, none⟩) ∨
      ((found = [] ∨ 12 + sectionSize qs + 16 * found.length ≤ slen) ∧
        ∃ sb, d.handle req qlen res slen alloc =
            some ⟨d', rb, some (sb, 12 + sectionSize qs + 16 * found.length)⟩ ∧
          Responds req sb qs (found.map (Asked.answer d.net)))) := by
  have hheader := hc.header
  have hfew := hc.few
  rw [handle_eq d res alloc hlen (by omega) (by rw [hc.count]; exact hfew), hc.count]
  have hloop := questions_of_has alloc d [] hc.has hc.inside
  cases hask : ask alloc d 12 qs with
  | none =>
      rw [hask, Option.map_none, Option.map_eq_none_iff] at hloop
      exact .inl ⟨rfl, by rw [hloop]; rfl⟩
  | some r =>
      obtain ⟨d', found⟩ := r
      rw [hask, Option.map_some, Option.map_eq_some_iff] at hloop
      obtain ⟨⟨d₁, rb, out⟩, hq, heq⟩ := hloop
      simp only [Prod.mk.injEq, List.nil_append] at heq
      obtain ⟨rfl, rfl⟩ := heq
      have hfound := length_ask hask
      refine .inr ⟨d₁, found, rb, rfl, ?_⟩
      rw [hq, Option.map_some]
      by_cases hroom : found = [] ∨ 12 + sectionSize qs + 16 * found.length ≤ slen
      · obtain ⟨sb, hans, hrec, hsame⟩ := answers_of_le (copied req qlen res)
          (show found.map (Asked.answer d.net) = [] ∨ 12 + sectionSize qs + 16 *
            (found.map (Asked.answer d.net)).length ≤ slen by simpa using hroom)
        rw [List.length_map] at hans hsame
        refine .inr ⟨hroom, _, by rw [finish, hans]; rfl, ?_⟩
        exact responds_finish hc (by rw [List.length_map]; omega) hrec
          (fun i hi => hsame i (.inl hi))
      · rw [not_or, not_le] at hroom
        refine .inl ⟨hroom.1, hroom.2, ?_⟩
        rw [finish, answers_of_lt (by simpa using hroom.1) _ (by simpa using hroom.2)]
        rfl

/-- A request is answered if there is room. -/
theorem exists_handle {d d' : MappedDNS} {res : Mem} {alloc : ℕ → Alloc} {found : List Asked}
    (hc : Carries req qlen qs) (hlen : qlen ≤ slen) (hask : ask alloc d 12 qs = some (d', found))
    (hroom : 12 + sectionSize qs + 16 * found.length ≤ slen) :
    ∃ h sb, d.handle req qlen res slen alloc = some h ∧ h.self = d' ∧
      h.res = some (sb, 12 + sectionSize qs + 16 * found.length) := by
  rcases handle_of_carries d res alloc hc hlen with ⟨hnone, -⟩ | ⟨d₁, found₁, rb, hask₁, hcases⟩
  · rw [hask] at hnone
    cases hnone
  · rw [hask] at hask₁
    cases hask₁
    rcases hcases with ⟨-, hlt, -⟩ | ⟨-, sb, hh, -⟩
    · omega
    · exact ⟨_, sb, hh, rfl, rfl⟩

end handle

/-! ### Responses when memory can be allocated -/

/-- Searches for names one after the other, with their results. -/
def finds (d : MappedDNS) : List CStr → Option (MappedDNS × List Int)
  | [] => some (d, [])
  | name :: names => do
      let (d, idx) ← d.find name .ok
      let (d, idxs) ← finds d names
      pure (d, idx :: idxs)

/-- A search has an index when the node can be allocated. -/
theorem nonneg_find {d d' : MappedDNS} {name : CStr} {r : Int} (h : d.find name .ok = some (d', r)) :
    0 ≤ r := by
  simp only [find, Option.bind_eq_bind, Option.bind_eq_some_iff] at h
  obtain ⟨⟨hit, slot⟩, -, h⟩ := h
  cases hit with
  | some p =>
      simp only [Option.bind_eq_some_iff] at h
      obtain ⟨node, -, h⟩ := h
      cases h
      exact Int.natCast_nonneg _
  | none =>
      simp only [addNode, if_neg (by decide : ¬ Alloc.ok = Alloc.noNode), Option.bind_eq_bind,
        Option.bind_eq_some_iff] at h
      obtain ⟨d₁, -, ⟨d₂, idx⟩, -, d₃, -, h⟩ := h
      cases h
      exact Int.natCast_nonneg _

/-- The questions for an address. -/
def addressQuestions (qs : List Question) : List Question := qs.filter (fun q => q.AsksA)

theorem addressQuestions_cons (q : Question) (qs : List Question) :
    addressQuestions (q :: qs) =
      if q.AsksA then q :: addressQuestions qs else addressQuestions qs := by
  simp [addressQuestions, List.filter_cons]

/-- All questions for an address are answered, with the results of their searches. -/
theorem finds_of_ask {d d' : MappedDNS} {off : ℕ} {qs : List Question} {found : List Asked}
    (h : ask (fun _ => .ok) d off qs = some (d', found)) :
    d.finds ((addressQuestions qs).map Question.cname) = some (d', found.map Asked.idx) ∧
      found.map Asked.question = addressQuestions qs := by
  induction qs generalizing d off d' found with
  | nil =>
      cases h
      exact ⟨rfl, rfl⟩
  | cons q qs ih =>
      rw [ask] at h
      rw [addressQuestions_cons]
      split_ifs at h ⊢ with hq
      · simp only [Option.bind_eq_bind, Option.bind_eq_some_iff, Option.pure_def,
          Option.some.injEq, Prod.mk.injEq] at h
        obtain ⟨⟨d₁, idx⟩, hf, ⟨d₂, rest⟩, hrest, rfl, rfl⟩ := h
        obtain ⟨hfinds, hquestions⟩ := ih hrest
        rw [if_pos (nonneg_find hf)]
        refine ⟨?_, congrArg (q :: ·) hquestions⟩
        simp [finds, hf, hfinds]
      · exact ih h

/-- The searches of a reachable cache return. -/
theorem Inv.exists_ask {d : MappedDNS} (h : d.Inv) (hmax : 0 < d.max.toNat) (off : ℕ)
    (qs : List Question) : ∃ r, ask (fun _ => .ok) d off qs = some r := by
  induction qs generalizing d off with
  | nil => exact ⟨_, rfl⟩
  | cons q qs ih =>
      rw [ask]
      split_ifs with hq
      · obtain ⟨d₁, hf, h₁, -, hcfg⟩ := h.find_sim hmax q.cname
        have hmax' : d₁.max = d.max := congrArg Prod.fst hcfg
        obtain ⟨r, hr⟩ := ih h₁ (hmax'.symm ▸ hmax) (off + q.size)
        exact ⟨_, by rw [hf]; simp only [Option.bind_eq_bind, Option.bind_some, hr]; rfl⟩
      · exact ih h hmax (off + q.size)

/-- The invariant of a cache after any calls. -/
theorem calls_inv {net mask : BitVec 32} {max : Int} {d₀ d : MappedDNS} {cs : List Call}
    (hmax : 1 ≤ max) (h₀ : construct net mask max = some d₀) (hcs : d₀.calls cs = some d) :
    d.Inv ∧ 0 < d.max.toNat := by
  obtain ⟨hle, hcfg, -⟩ := construct_eq_some h₀
  obtain ⟨rfl, rfl, rfl⟩ : d₀.max = max ∧ d₀.net = net ∧ d₀.mask = mask := by
    simpa [config] using hcfg
  rw [calls_exec] at hcs
  obtain ⟨d', hd', hinv, hcfg', -⟩ :=
    (construct_inv h₀).exec_sim (by omega) (by omega) (events cs)
  rw [hcs, Option.some.injEq] at hd'
  subst hd'
  have hmax' : d.max = d₀.max := congrArg Prod.fst hcfg'
  exact ⟨hinv, by omega⟩

theorem has_record {sb : Mem} {off i : ℕ} {out : List (ℕ × BitVec 32)} {a : ℕ × BitVec 32}
    (h : sb.Has off (out.flatMap answerBytes)) (ha : out[i]? = some a) :
    sb.Has (off + 16 * i) (answerBytes a) := by
  induction out generalizing off i with
  | nil => cases ha
  | cons b out ih =>
      rw [List.flatMap_cons, Mem.has_append, length_answerBytes] at h
      cases i with
      | zero =>
          cases ha
          exact h.1
      | succ i =>
          rw [show off + 16 * (i + 1) = off + 16 + 16 * i by omega]
          exact ih h.2 ha

/-- A response with the request's identification and questions and with one address record for each
of the addresses. -/
structure Answered (req sb : Mem) (qs : List Question) (ips : List (BitVec 32)) : Prop where
  id : readU16 sb 0 = readU16 req 0
  qdcount : readU16 sb 4 = readU16 req 4
  /-- `QR` is set, and `RA` if `RD` is. -/
  flags : ∀ j < 16, (readU16 sb 2).testBit j =
    ((readU16 req 2).testBit j || decide (j = 15) || (decide (j = 7) && (readU16 req 2).testBit 8))
  ancount : readU16 sb 6 = ips.length
  nscount : readU16 sb 8 = 0
  arcount : readU16 sb 10 = 0
  questions : ∀ i, 12 ≤ i → i < 12 + sectionSize qs → sb i = req i
  /-- Type, class, length and data of the records. -/
  records : ∀ i ip, ips[i]? = some ip →
    readU16 sb (12 + sectionSize qs + 16 * i + 2) = 1 ∧
    readU16 sb (12 + sectionSize qs + 16 * i + 4) = 1 ∧
    readU16 sb (12 + sectionSize qs + 16 * i + 10) = 4 ∧
    sb.Has (12 + sectionSize qs + 16 * i + 12) (ipv4Bytes ip).toList

theorem Responds.answered {req sb : Mem} {qs : List Question} {out : List (ℕ × BitVec 32)}
    (h : Responds req sb qs out) : Answered req sb qs (out.map Prod.snd) := by
  refine ⟨h.id, h.qdcount, ?_, ?_, h.nscount, h.arcount, h.questions, ?_⟩
  · intro j _
    rw [h.flags, testBit_responseFlags]
  · rw [h.ancount, List.length_map]
  · intro i ip hip
    rw [List.getElem?_map, Option.map_eq_some_iff] at hip
    obtain ⟨a, ha, rfl⟩ := hip
    have hrec := has_record h.records ha
    rw [answerBytes, Mem.has_append] at hrec
    obtain ⟨⟨-, -, h₂, h₃, h₄, h₅, -, -, -, -, h₁₀, h₁₁, -⟩, hdata⟩ := hrec
    refine ⟨?_, ?_, ?_, hdata⟩
    · rw [readU16, h₂, h₃]
      rfl
    · rw [readU16, h₄, h₅]
      rfl
    · rw [readU16, h₁₀, h₁₁]
      rfl

/-- The response to a request with questions: a record for every question for an address, if there
is room for them.  A reachable cache always responds. -/
theorem handle_response (d : MappedDNS) {req : Mem} (res : Mem) {qlen slen : ℕ} {qs : List Question}
    (hc : Carries req qlen qs) (hlen : qlen ≤ slen) :
    (∀ h, d.handle req qlen res slen (fun _ => .ok) = some h →
      ∃ idxs, d.finds ((addressQuestions qs).map Question.cname) = some (h.self, idxs) ∧
        (0 < (addressQuestions qs).length ∧
            slen < 12 + sectionSize qs + 16 * (addressQuestions qs).length → h.res = none) ∧
        (¬ (0 < (addressQuestions qs).length ∧
            slen < 12 + sectionSize qs + 16 * (addressQuestions qs).length) →
          ∃ sb, h.res = some (sb, 12 + sectionSize qs + 16 * (addressQuestions qs).length) ∧
            Answered req sb qs (idxs.map (fun idx => d.net ||| BitVec.ofInt 32 idx)))) ∧
    (∀ {net mask max d₀ cs}, 1 ≤ max → construct net mask max = some d₀ → d₀.calls cs = some d →
      ∃ h, d.handle req qlen res slen (fun _ => .ok) = some h) := by
  constructor
  · intro h hh
    rcases handle_of_carries d res (fun _ => .ok) hc hlen with
      ⟨-, hnone⟩ | ⟨d', found, rb, hask, hcases⟩
    · rw [hnone] at hh
      cases hh
    · obtain ⟨hfinds, hquestions⟩ := finds_of_ask hask
      have hlength : (addressQuestions qs).length = found.length := by
        rw [← hquestions, List.length_map]
      rw [hlength]
      rcases hcases with ⟨hne, hroom, hres⟩ | ⟨hroom, sb, hres, hsb⟩
      · rw [hres] at hh
        cases hh
        refine ⟨_, hfinds, fun _ => rfl, fun hn => ?_⟩
        exact absurd ⟨List.length_pos_iff.mpr hne, hroom⟩ hn
      · rw [hres] at hh
        cases hh
        refine ⟨_, hfinds, ?_, fun _ => ⟨sb, rfl, ?_⟩⟩
        · rintro ⟨hpos, hlt⟩
          rcases hroom with rfl | hle
          · cases hpos
          · omega
        · have := hsb.answered
          rwa [List.map_map] at this ⊢
  · intro net mask max d₀ cs hmax h₀ hcs
    obtain ⟨hinv, hpos⟩ := calls_inv hmax h₀ hcs
    obtain ⟨r, hr⟩ := hinv.exists_ask hpos 12 qs
    rcases handle_of_carries d res (fun _ => .ok) hc hlen with
      ⟨hnone, -⟩ | ⟨d', found, rb, -, ⟨-, -, hres⟩ | ⟨-, sb, hres, -⟩⟩
    · rw [hr] at hnone
      cases hnone
    · exact ⟨_, hres⟩
    · exact ⟨_, hres⟩

/-- The question of `sampleQuery`. -/
def sampleQuestion : Question := ⟨[⟨[97], by decide, by decide⟩], 1, 1⟩

theorem carries_sampleQuery : Carries sampleQuery 19 [sampleQuestion] :=
  ⟨by decide, by decide, by decide, ⟨rfl, rfl, rfl, rfl, rfl, rfl, rfl, trivial⟩, by decide⟩

theorem handle_response_sampleQuery : ∃ d h sb, construct 0x64400000#32 0xffc00000#32 4 = some d ∧
    d.handle sampleQuery 19 sampleQuery 512 (fun _ => .ok) = some h ∧ h.res = some (sb, 35) ∧
    readU16 sb 6 = 1 := by
  obtain ⟨d, hd⟩ : ∃ d, construct 0x64400000#32 0xffc00000#32 4 = some d := ⟨_, rfl⟩
  have hresp := handle_response d sampleQuery carries_sampleQuery
    (show 19 ≤ 512 by decide)
  obtain ⟨h, hh⟩ := hresp.2 (by decide) hd (show d.calls [] = some d from rfl)
  obtain ⟨idxs, hidxs, -, hres⟩ := hresp.1 h hh
  obtain ⟨sb, hsb, hans⟩ := hres (by decide)
  refine ⟨d, h, sb, hd, hh, hsb, ?_⟩
  have hlen : idxs.length = 1 := by
    obtain ⟨⟨d₁, idx⟩, -, hrest⟩ := Option.bind_eq_some_iff.mp hidxs
    cases hrest
    rfl
  rw [hans.ancount, List.length_map, hlen]

/-! ### The owners of the answers -/

/-- The owner of the record at `off` is a compression pointer that leads to the name. -/
def Owned (sb : Mem) (n off : ℕ) (name : List Label) : Prop :=
  0xc0 ≤ (sb off).toNat ∧ ReadsName sb n off name

/-- The request with the header of its response, which has `k` answers. -/
def headed (req : Mem) (k : ℕ) : Mem :=
  writeU16 (writeU16 (writeU16 (writeU16 req 2 (responseFlags (readU16 req 2))) 6 k) 8 0) 10 0

theorem eq_of_readU16_eq {m m' : Mem} {i : ℕ} (h : readU16 m i = readU16 m' i) :
    m i = m' i ∧ m (i + 1) = m' (i + 1) := by
  have h₁ := (m (i + 1)).toNat_lt
  have h₂ := (m' (i + 1)).toNat_lt
  unfold readU16 at h
  exact ⟨UInt8.toNat_inj.mp (by omega), UInt8.toNat_inj.mp (by omega)⟩

theorem headed_of_outside {req : Mem} {k i : ℕ} (hi : i < 2 ∨ 4 ≤ i ∧ i < 6 ∨ 12 ≤ i) :
    headed req k i = req i := by
  unfold headed
  rw [writeU16_of_outside (by omega), writeU16_of_outside (by omega),
    writeU16_of_outside (by omega), writeU16_of_outside (by omega)]

/-- Before the records, a response is the request with another header. -/
theorem Responds.eq_headed {req sb : Mem} {qs : List Question} {out : List (ℕ × BitVec 32)}
    (h : Responds req sb qs out) (hout : out.length ≤ 32) {i : ℕ} (hi : i < 12 + sectionSize qs) :
    sb i = headed req out.length i := by
  have hfield : ∀ j, readU16 sb j = readU16 (headed req out.length) j → i = j ∨ i = j + 1 →
      sb i = headed req out.length i := by
    rintro j hj (rfl | rfl)
    · exact (eq_of_readU16_eq hj).1
    · exact (eq_of_readU16_eq hj).2
  by_cases h12 : 12 ≤ i
  · rw [headed_of_outside (.inr (.inr h12)), h.questions i h12 hi]
  by_cases h10 : 10 ≤ i
  · refine hfield 10 ?_ (by omega)
    rw [h.arcount, headed, readU16_writeU16 _ _ (by decide)]
  by_cases h8 : 8 ≤ i
  · refine hfield 8 ?_ (by omega)
    rw [h.nscount, headed, readU16_writeU16_of_outside (by omega), readU16_writeU16 _ _ (by decide)]
  by_cases h6 : 6 ≤ i
  · refine hfield 6 ?_ (by omega)
    rw [h.ancount, headed, readU16_writeU16_of_outside (by omega),
      readU16_writeU16_of_outside (by omega), readU16_writeU16 _ _ (by omega)]
  by_cases h4 : 4 ≤ i
  · refine hfield 4 ?_ (by omega)
    rw [h.qdcount]
    exact (readU16_congr (headed_of_outside (by omega)) (headed_of_outside (by omega))).symm
  by_cases h2 : 2 ≤ i
  · refine hfield 2 ?_ (by omega)
    rw [h.flags, headed, readU16_writeU16_of_outside (by omega),
      readU16_writeU16_of_outside (by omega), readU16_writeU16_of_outside (by omega),
      readU16_writeU16 _ _ (responseFlags_lt (readU16_lt req 2))]
  · refine hfield 0 ?_ (by omega)
    rw [h.id]
    exact (readU16_congr (headed_of_outside (by omega)) (headed_of_outside (by omega))).symm

/-- Where the questions that were asked stand in the message. -/
theorem located_of_ask {alloc : ℕ → Alloc} {d d' : MappedDNS} {off : ℕ} {qs : List Question}
    {found : List Asked} {m : Mem} (h : ask alloc d off qs = some (d', found))
    (hhas : m.Has off (sectionBytes qs)) :
    ∀ a ∈ found, a.question ∈ qs ∧ off ≤ a.offset ∧
      a.offset + a.question.size ≤ off + sectionSize qs ∧ m.Has a.offset a.question.bytes := by
  induction qs generalizing d off d' found with
  | nil =>
      cases h
      intro a ha
      cases ha
  | cons q qs ih =>
      rw [sectionBytes, List.flatMap_cons, Mem.has_append, q.length_bytes] at hhas
      rw [sectionSize_cons]
      have hlift : ∀ a : Asked, (a.question ∈ qs ∧ off + q.size ≤ a.offset ∧
          a.offset + a.question.size ≤ off + q.size + sectionSize qs ∧
          m.Has a.offset a.question.bytes) →
          a.question ∈ q :: qs ∧ off ≤ a.offset ∧
          a.offset + a.question.size ≤ off + (q.size + sectionSize qs) ∧
          m.Has a.offset a.question.bytes := by
        rintro a ⟨hmem, hoff, hsize, hbytes⟩
        exact ⟨List.mem_cons_of_mem _ hmem, by omega, by omega, hbytes⟩
      rw [ask] at h
      split_ifs at h with hq
      · simp only [Option.bind_eq_bind, Option.bind_eq_some_iff, Option.pure_def,
          Option.some.injEq, Prod.mk.injEq] at h
        obtain ⟨⟨d₁, idx⟩, -, ⟨d₂, rest⟩, hrest, rfl, rfl⟩ := h
        have htail := ih hrest hhas.2
        intro a ha
        split_ifs at ha
        · rcases List.mem_cons.mp ha with rfl | ha
          · exact ⟨by simp, le_rfl, by simp only; omega, hhas.1⟩
          · exact hlift a (htail a ha)
        · exact hlift a (htail a ha)
      · intro a ha
        exact hlift a (ih h hhas.2 a ha)

/-- The pointer of the record leads to the offset modulo 256. -/
theorem owned_iff_reads {sb : Mem} {n off o : ℕ} {name : List Label} (h₀ : sb off = 0xc0)
    (h₁ : sb (off + 1) = UInt8.ofNat o) (hn : off + 2 ≤ n) (ho : o % 256 < off) :
    Owned sb n off name ↔ ReadsName sb n (o % 256) name := by
  have hbyte : UInt8.ofNat (o % 256) = UInt8.ofNat o := by
    apply UInt8.toNat_inj.mp
    simp only [UInt8.toNat_ofNat']
    omega
  have hzero : UInt8.ofNat (0xc0 + o % 256 / 256) = 0xc0 := by
    rw [show o % 256 / 256 = 0 by omega]
    rfl
  constructor
  · rintro ⟨-, h⟩
    cases h with
    | root _ hz =>
        rw [h₀] at hz
        exact absurd hz (by decide)
    | @label _ l _ hl _ hhas _ =>
        have := congrArg UInt8.toNat (hhas.1.symm.trans h₀)
        rw [l.toNat_lengthByte] at this
        simp at this
        omega
    | @pointer _ target _ _ ht _ ht₀ ht₁ h =>
        have : target = o % 256 := pointer_inj ht (by omega)
          (ht₀.symm.trans (h₀.trans hzero.symm)) (ht₁.symm.trans (h₁.trans hbyte.symm))
        rwa [this] at h
  · intro h
    refine ⟨by rw [h₀]; decide, ?_⟩
    exact .pointer hn (by omega) ho (h₀.trans hzero.symm) (h₁.trans hbyte.symm) h

section owners
variable {d d' : MappedDNS} {req res sb : Mem} {qlen slen n : ℕ} {qs : List Question}
  {alloc : ℕ → Alloc} {found : List Asked} {h : Handled}

/-- A response is made only for a request that fits it, and it has the records of the searches. -/
theorem responds_of_handle (hc : Carries req qlen qs) (hask : ask alloc d 12 qs = some (d', found))
    (hh : d.handle req qlen res slen alloc = some h) (hres : h.res = some (sb, n)) :
    n = 12 + sectionSize qs + 16 * found.length ∧
      Responds req sb qs (found.map (Asked.answer d.net)) := by
  have hlen : qlen ≤ slen := by
    by_contra hlen
    rw [handle_refused _ _ _ _ _ _ (.inl (not_le.mp hlen))] at hh
    cases hh
    cases hres
  rcases handle_of_carries d res alloc hc hlen with
    ⟨hnone, -⟩ | ⟨d₁, found₁, rb, hask₁, hcases⟩
  · rw [hask] at hnone
    cases hnone
  · rw [hask] at hask₁
    cases hask₁
    rcases hcases with ⟨-, -, hrefused⟩ | ⟨-, sb₁, hh₁, hr⟩
    · rw [hh] at hrefused
      cases hrefused
      cases hres
    · rw [hh] at hh₁
      cases hh₁
      cases hres
      exact ⟨rfl, hr⟩

/-- One answer: its owner is right if the question starts before offset 256, or if its name can
also be read at the offset modulo 256. -/
theorem owned_iff (hc : Carries req qlen qs) (hwf : ∀ q ∈ qs, ∀ l ∈ q.name, l.bytes.length ≤ 63)
    (hask : ask alloc d 12 qs = some (d', found))
    (hh : d.handle req qlen res slen alloc = some h) (hres : h.res = some (sb, n)) {i : ℕ}
    {a : Asked} (ha : found[i]? = some a) :
    Owned sb n (12 + sectionSize qs + 16 * i) a.question.name ↔
      a.offset < 256 ∨ ReadsName (headed req found.length) (12 + sectionSize qs) (a.offset % 256)
        a.question.name := by
  obtain ⟨rfl, hr⟩ := responds_of_handle hc hask hh hres
  obtain ⟨hq, hoff, hsize, hbytes⟩ := located_of_ask hask hc.has a (List.mem_of_getElem? ha)
  have hi : i < found.length := (List.getElem?_eq_some_iff.mp ha).1
  have hfew := (length_ask hask).trans hc.few
  rw [Question.size] at hsize
  -- the two bytes of the owner
  have hrecord := has_record hr.records
    (show (found.map (Asked.answer d.net))[i]? = some (a.answer d.net) by
      rw [List.getElem?_map, ha]; rfl)
  have hmod := Nat.mod_le a.offset 256
  rw [owned_iff_reads hrecord.1 hrecord.2.1 (by omega) (by simp only [Asked.answer]; omega)]
  simp only [Asked.answer]
  have hheaded : ∀ i < 12 + sectionSize qs, sb i = headed req found.length i := by
    intro i hi
    rw [hr.eq_headed (by rw [List.length_map]; exact hfew) hi, List.length_map]
  by_cases hsmall : a.offset < 256
  · rw [Nat.mod_eq_of_lt hsmall]
    refine iff_of_true (readsName_of_has (hwf _ hq) ?_ (by omega)) (.inl hsmall)
    rw [Question.bytes, Mem.has_append] at hbytes
    exact hbytes.1.congr (fun i hi hlt => hr.questions i (by omega) (by omega))
  · have hslack : a.offset % 256 + (nameBytes a.question.name).length < 12 + sectionSize qs := by
      omega
    rw [or_iff_right hsmall]
    constructor
    · intro hreads
      exact hreads.local hslack le_rfl (fun i hi => (hheaded i hi).symm)
    · intro hreads
      exact hreads.local hslack (by omega) hheaded

/-- The owners of a response to a query whose labels have at most 63 bytes. -/
theorem owners_iff (hc : Carries req qlen qs) (hwf : ∀ q ∈ qs, ∀ l ∈ q.name, l.bytes.length ≤ 63)
    (hask : ask alloc d 12 qs = some (d', found))
    (hh : d.handle req qlen res slen alloc = some h) (hres : h.res = some (sb, n)) :
    (∀ i a, found[i]? = some a → Owned sb n (12 + sectionSize qs + 16 * i) a.question.name) ↔
      ∀ a ∈ found, a.offset < 256 ∨ ReadsName (headed req found.length) (12 + sectionSize qs)
        (a.offset % 256) a.question.name := by
  constructor
  · intro howned a ha
    obtain ⟨i, hi⟩ := List.getElem?_of_mem ha
    exact (owned_iff hc hwf hask hh hres hi).mp (howned i a hi)
  · intro hcond i a ha
    exact (owned_iff hc hwf hask hh hres ha).mpr (hcond a (List.mem_of_getElem? ha))

end owners

/-- The questions of `pairQuery`. -/
def pairQuestions : List Question :=
  [⟨[⟨[98], by decide, by decide⟩], 1, 1⟩, ⟨[⟨[99], by decide, by decide⟩], 1, 1⟩]

theorem carries_pairQuery : Carries pairQuery 26 pairQuestions :=
  ⟨by decide, by decide, by decide,
    ⟨rfl, rfl, rfl, rfl, rfl, rfl, rfl, rfl, rfl, rfl, rfl, rfl, rfl, rfl, trivial⟩, by decide⟩

/-- The two answers of a response have the names of their questions. -/
theorem owners_pairQuery : ∃ d h sb, construct 0x64400000#32 0xffc00000#32 4 = some d ∧
    d.handle pairQuery 26 pairQuery 512 (fun _ => .ok) = some h ∧ h.res = some (sb, 58) ∧
    Owned sb 58 26 [⟨[98], by decide, by decide⟩] ∧ Owned sb 58 42 [⟨[99], by decide, by decide⟩] := by
  obtain ⟨d, hd⟩ : ∃ d, construct 0x64400000#32 0xffc00000#32 4 = some d := ⟨_, rfl⟩
  obtain ⟨d', hask⟩ : ∃ d', ask (fun _ => .ok) d 12 pairQuestions =
      some (d', [⟨12, ⟨[⟨[98], by decide, by decide⟩], 1, 1⟩, 0⟩,
        ⟨19, ⟨[⟨[99], by decide, by decide⟩], 1, 1⟩, 1⟩]) := by
    cases hd
    exact ⟨_, rfl⟩
  obtain ⟨h, sb, hh, -, hres⟩ := exists_handle carries_pairQuery (show 26 ≤ 512 by decide) hask
    (by decide)
  have howners := (owners_iff carries_pairQuery (by decide) hask hh hres).mpr (by
    simp only [List.mem_cons, List.not_mem_nil, or_false]
    rintro a (rfl | rfl)
    · exact .inl (by decide)
    · exact .inl (by decide))
  exact ⟨d, h, sb, hd, hh, hres, howners 0 _ rfl, howners 1 _ rfl⟩

/-- A label of 63 bytes. -/
def longLabel : DNS.Label := ⟨List.replicate 63 97, by decide, by decide⟩

/-- A name of the greatest length, asked for with another type. -/
def longQuestion : Question :=
  ⟨[longLabel, longLabel, longLabel, ⟨List.replicate 61 97, by decide, by decide⟩], 28, 1⟩

/-- A query with two questions, the second of which stands at offset 271. -/
def farQuery : Mem := fun i =>
  ([0, 1, 1, 0, 0, 2, 0, 0, 0, 0, 0, 0] ++ sectionBytes [longQuestion, sampleQuestion]).getD i 0

theorem size_longQuestion : longQuestion.size = 259 := by
  decide +kernel

theorem sectionSize_farQuery : sectionSize [longQuestion, sampleQuestion] = 266 := by
  rw [sectionSize_cons, size_longQuestion]
  decide

theorem carries_farQuery : Carries farQuery 278 [longQuestion, sampleQuestion] :=
  ⟨by decide, by decide, by decide, Mem.has_getD [0, 1, 1, 0, 0, 2, 0, 0, 0, 0, 0, 0] _,
    by rw [sectionSize_farQuery]⟩

/-- The owner of the only answer points to offset 15, which is inside a label of the first name. -/
theorem owner_of_far_question : ∃ d d' h sb, construct 0x64400000#32 0xffc00000#32 4 = some d ∧
    ask (fun _ => .ok) d 12 [longQuestion, sampleQuestion] =
      some (d', [⟨271, sampleQuestion, 0⟩]) ∧
    d.handle farQuery 278 farQuery 512 (fun _ => .ok) = some h ∧ h.res = some (sb, 294) ∧
    ¬ Owned sb 294 278 sampleQuestion.name := by
  obtain ⟨d, hd⟩ : ∃ d, construct 0x64400000#32 0xffc00000#32 4 = some d := ⟨_, rfl⟩
  obtain ⟨d', hask⟩ : ∃ d', ask (fun _ => .ok) d 12 [longQuestion, sampleQuestion] =
      some (d', [⟨271, sampleQuestion, 0⟩]) := by
    rw [ask, if_neg (by decide), size_longQuestion]
    cases hd
    exact ⟨_, rfl⟩
  obtain ⟨h, sb, hh, -, hres⟩ := exists_handle carries_farQuery (show 278 ≤ 512 by decide) hask
    (by rw [sectionSize_farQuery]; decide)
  have howner := owned_iff carries_farQuery (by decide) hask hh hres (i := 0) rfl
  rw [sectionSize_farQuery] at hres howner
  refine ⟨d, d', h, sb, hd, hask, hh, hres, fun howned => ?_⟩
  have hbyte : headed farQuery 1 15 = 97 := by decide +kernel
  rcases howner.mp howned with hsmall | hreads
  · exact absurd hsmall (by decide)
  · cases hreads with
    | label _ _ hhas _ =>
        exact absurd (hhas.1.symm.trans hbyte) (by decide)
    | @pointer _ target _ _ ht _ ht₀ _ _ =>
        have htarget := congrArg UInt8.toNat (ht₀.symm.trans hbyte)
        rw [toNat_pointerByte ht] at htarget
        simp at htarget
        omega

end MappedDNS
end HevTunnel
