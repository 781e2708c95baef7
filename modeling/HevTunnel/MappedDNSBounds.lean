import HevTunnel.MappedDNSResponse

/-! # The memory accesses of the DNS message handler

Lists of the accesses that `hev_mapped_dns_handle` makes to the request, to the response and to its
two arrays, one function per loop with the same recursion shape as the loop in `MappedDNS.lean`.

* A word of two bytes is two accesses, and what is read twice is listed twice.
* A string that is passed to `hev_mapped_dns_find` is one access: it is inside the request if a
  `NUL` byte is.
* The number of rounds of the label loop is a parameter of the lists.  Every round makes an access,
  so the loop ends if more rounds do not make the list longer.

The label loop tests an offset before it reads the byte there, with one exception: the first byte of
a name is read at once.  `inBounds_iff` says that this byte and the header are all that can be read
outside of the request. -/

namespace HevTunnel
namespace MappedDNS

open DNS

inductive Access where
  | readReq (i : ℕ)
  | writeReq (i : ℕ)
  | readRes (i : ℕ)
  | writeRes (i : ℕ)
  /-- An element of `ips` or `ipo`. -/
  | slot (i : ℕ)
  /-- The string at `i`, when the request is `rb`. -/
  | str (rb : Mem) (i : ℕ)

/-- The access stays inside the buffer or the array that it is made to. -/
def Access.Inside (qlen slen : ℕ) : Access → Prop
  | readReq i | writeReq i => i < qlen
  | readRes i | writeRes i => i < slen
  | slot i => i < 32
  | str rb i => ∃ j, i ≤ j ∧ j < qlen ∧ rb j = 0

/-! ### The lists of accesses -/

/-- The label loop, for at most `fuel` rounds. -/
def skipNameAccesses (qlen : ℕ) : ℕ → Mem → ℕ → List Access
  | 0, _, _ => []
  | fuel + 1, rb, off =>
      if rb off = 0 then [.readReq off]
      else
        let next := off + (1 + (rb off).toNat)
        if qlen ≤ next then [.readReq off, .readReq off]
        else .readReq off :: .readReq off :: .writeReq off ::
          skipNameAccesses qlen fuel (rb.write off 46) next

/-- The question loop, with `n` questions left and `ipn` answers.  Its condition reads `qd`, and the
class of a question is read when the type is `A`. -/
def questionsAccesses (qlen fuel : ℕ) (alloc : ℕ → Alloc) :
    ℕ → MappedDNS → Mem → ℕ → ℕ → List Access
  | 0, _, _, _, _ => [.readReq 4, .readReq 5]
  | n + 1, self, rb, ipo, ipn =>
      .readReq 4 :: .readReq 5 :: .slot ipn :: (skipNameAccesses qlen fuel rb ipo ++
      match skipName qlen (qlen + 1) rb ipo with
      | (_, none) => []
      | (rb, some stop) =>
          let off := stop + 1
          if qlen ≤ off + 3 then []
          else .readReq off :: .readReq (off + 1) ::
            ((if readU16 rb off = 1 then [.readReq (off + 2), .readReq (off + 3)] else []) ++
            if readU16 rb off = 1 ∧ readU16 rb (off + 2) = 1 then
              .slot ipn :: .str rb (ipo + 1) ::
              match self.find (questionName rb ipo qlen) (alloc n) with
              | none => []
              | some (self, idx) =>
                  if 0 ≤ idx then
                    .slot ipn :: questionsAccesses qlen fuel alloc n self rb (off + 4) (ipn + 1)
                  else questionsAccesses qlen fuel alloc n self rb (off + 4) ipn
            else questionsAccesses qlen fuel alloc n self rb (off + 4) ipn))

/-- The answer loop, from the answer number `i`, and the header fields that are set behind it. -/
def answersAccesses (slen : ℕ) : List (ℕ × BitVec 32) → ℕ → ℕ → List Access
  | [], _, _ => [.readRes 2, .readRes 3, .readRes 2, .readRes 3, .writeRes 2, .writeRes 3,
      .writeRes 6, .writeRes 7]
  | _ :: rest, off, i =>
      if slen ≤ off + 15 then []
      else .slot i :: .slot i :: ((List.range 16).map (fun j => .writeRes (off + j)) ++
        answersAccesses slen rest (off + 16) (i + 1))

/-- The copy of the request and the header fields that are set before the first test. -/
def headerAccesses (qlen : ℕ) : List Access :=
  (List.range qlen).map Access.readReq ++ (List.range qlen).map Access.writeRes ++
    [.readReq 4, .readReq 5, .writeReq 4, .writeReq 5, .readRes 2, .readRes 3, .writeRes 2,
      .writeRes 3, .writeRes 8, .writeRes 9, .writeRes 6, .writeRes 7, .writeRes 10, .writeRes 11,
      .readReq 4, .readReq 5]

/-- The accesses of `hev_mapped_dns_handle`. -/
def handleAccesses (fuel : ℕ) (self : MappedDNS) (req : Mem) (qlen slen : ℕ) (alloc : ℕ → Alloc) :
    List Access :=
  if slen < qlen then []
  else headerAccesses qlen ++
    if 32 < readU16 req 4 then []
    else questionsAccesses qlen fuel alloc (readU16 req 4) self req 12 0 ++
      match questions qlen alloc (readU16 req 4) self req 12 [] with
      | some (_, _, some (off, out)) => answersAccesses slen out off 0
      | _ => []

/-- The accesses are inside, the loops end, and the bytes of a response have been written. -/
structure InBounds (d : MappedDNS) (req : Mem) (qlen : ℕ) (res : Mem) (slen : ℕ)
    (alloc : ℕ → Alloc) : Prop where
  inside : ∀ a ∈ d.handleAccesses (qlen + 1) req qlen slen alloc, a.Inside qlen slen
  ends : ∀ fuel, qlen < fuel → d.handleAccesses fuel req qlen slen alloc =
    d.handleAccesses (qlen + 1) req qlen slen alloc
  written : ∀ h sb n, d.handle req qlen res slen alloc = some h → h.res = some (sb, n) →
    12 ≤ n ∧ n ≤ slen ∧ ∀ i < n, .writeRes i ∈ d.handleAccesses (qlen + 1) req qlen slen alloc

/-! ### The label loop -/

section labels
variable {qlen slen off : ℕ} {rb : Mem}

/-- Inside of the request, the label loop stays inside. -/
theorem skipNameAccesses_inside (hoff : off < qlen) (fuel : ℕ) :
    ∀ a ∈ skipNameAccesses qlen fuel rb off, a.Inside qlen slen := by
  induction fuel generalizing rb off with
  | zero => simp [skipNameAccesses]
  | succ fuel ih =>
      simp only [skipNameAccesses]
      split_ifs with hz hnext
      · simpa [Access.Inside] using hoff
      · simpa [Access.Inside] using hoff
      · simpa [Access.Inside, hoff] using ih (not_le.mp hnext)

/-- A byte is read in the first round. -/
theorem readReq_mem_skipNameAccesses (fuel : ℕ) :
    .readReq off ∈ skipNameAccesses qlen (fuel + 1) rb off := by
  simp only [skipNameAccesses]
  split_ifs <;> simp

/-- The offset grows in every round, so there are not more rounds than bytes. -/
theorem skipNameAccesses_fuel {m n : ℕ} (hm : 0 < m) (hoff : qlen < off + m) (hn : m ≤ n) :
    skipNameAccesses qlen n rb off = skipNameAccesses qlen m rb off := by
  induction m generalizing rb off n with
  | zero => cases hm
  | succ m ih =>
      obtain ⟨n, rfl⟩ : ∃ k, n = k + 1 := ⟨n - 1, by omega⟩
      simp only [skipNameAccesses]
      split_ifs with hz hnext
      · rfl
      · rfl
      · rw [ih (by omega) (by omega) (by omega)]

/-- The label loop stops at a `NUL` byte. -/
theorem zero_of_skipName {n stop : ℕ} {rb' : Mem} (h : skipName qlen n rb off = (rb', some stop)) :
    rb' stop = 0 ∧ off ≤ stop := by
  induction n generalizing rb off with
  | zero =>
      rw [skipName] at h
      cases h
  | succ n ih =>
      simp only [skipName] at h
      split_ifs at h with hz hnext
      · cases h
        exact ⟨hz, le_rfl⟩
      · cases h
      · obtain ⟨hzero, hle⟩ := ih h
        exact ⟨hzero, by omega⟩

theorem exists_has_be16 (m : Mem) (i : ℕ) : ∃ v, m.Has i (be16 v) := by
  have hlt := readU16_lt m i
  have h₁ := (m (i + 1)).toNat_lt
  refine ⟨UInt16.ofNat (readU16 m i), ?_, ?_, trivial⟩
  · apply UInt8.toNat_inj.mp
    simp only [UInt8.toNat_ofNat', UInt16.toNat_ofNat']
    unfold readU16 at hlt ⊢
    omega
  · apply UInt8.toNat_inj.mp
    simp only [UInt8.toNat_ofNat', UInt16.toNat_ofNat']
    unfold readU16 at hlt ⊢
    omega

/-- What the label loop has gone through is the name of a question. -/
theorem exists_question {rb' : Mem} {stop : ℕ} (hoff : off < qlen)
    (h : skipName qlen (qlen + 1) rb off = (rb', some stop)) :
    stop < qlen ∧ (∀ i, stop < i → rb' i = rb i) ∧
      ∃ q : Question, rb.Has off q.bytes ∧ stop + 1 + 4 = off + q.size := by
  obtain ⟨ls, hls, hstop, hin⟩ := has_of_skipName h
  have hlt : stop < qlen := by
    rcases hin with rfl | hlt
    · simp only [nameBytes, List.length_singleton] at hstop
      omega
    · exact hlt
  have hlabels := length_lt_nameBytes ls
  obtain ⟨rb'', hskip, -, hsame⟩ := skipName_of_has (n := qlen + 1) hls
    (by omega : _ ≤ qlen) (by omega)
  rw [h, Prod.mk.injEq] at hskip
  obtain ⟨rfl, -⟩ := hskip
  refine ⟨hlt, fun i hi => hsame i (by omega), ?_⟩
  obtain ⟨qtype, htype⟩ := exists_has_be16 rb (off + (nameBytes ls).length)
  obtain ⟨qclass, hclass⟩ := exists_has_be16 rb (off + (nameBytes ls).length + 2)
  refine ⟨⟨ls, qtype, qclass⟩, ?_, ?_⟩
  · rw [Question.bytes, Mem.has_append, Mem.has_append]
    exact ⟨hls, htype, hclass⟩
  · rw [hstop, Question.size, Nat.add_assoc]

end labels

/-! ### The question loop -/

/-- The request does not end right behind questions that are fewer than `n`. -/
def Uncut (qlen n : ℕ) (rb : Mem) (off : ℕ) : Prop :=
  ∀ qs : List Question, qs.length < n → rb.Has off (sectionBytes qs) → off + sectionSize qs ≠ qlen

section questions
variable {qlen slen fuel n off stop ipn : ℕ} {rb rb' : Mem} {alloc : ℕ → Alloc} {d : MappedDNS}

theorem Uncut.lt (h : Uncut qlen (n + 1) rb off) (hoff : off ≤ qlen) : off < qlen := by
  have hne : off ≠ qlen := h [] (Nat.succ_pos n) trivial
  omega

/-- One question less. -/
theorem Uncut.next (h : Uncut qlen (n + 1) rb off) (hoff : off < qlen)
    (hskip : skipName qlen (qlen + 1) rb off = (rb', some stop)) :
    Uncut qlen n rb' (stop + 1 + 4) := by
  obtain ⟨-, hsame, q, hq, hstop⟩ := exists_question hoff hskip
  intro qs hqs hhas
  have hhas' : rb.Has (off + q.size) (sectionBytes qs) := by
    rw [← hstop]
    exact hhas.congr (fun i hi _ => (hsame i (by omega)).symm)
  rw [hstop, Nat.add_assoc, ← sectionSize_cons]
  refine h (q :: qs) (Nat.succ_lt_succ hqs) ?_
  rw [sectionBytes, List.flatMap_cons, Mem.has_append, q.length_bytes]
  exact ⟨hq, hhas'⟩

/-- The string of a question of type `A` ends inside: at the end of the name, or, for the root name,
with the higher byte of the type. -/
theorem str_inside (hskip : skipName qlen n rb off = (rb', some stop))
    (htype : readU16 rb' (stop + 1) = 1) (hstop : stop + 1 < qlen) :
    Access.Inside qlen slen (.str rb' (off + 1)) := by
  obtain ⟨hzero, hle⟩ := zero_of_skipName hskip
  by_cases hroot : off = stop
  · refine ⟨stop + 1, by omega, hstop, ?_⟩
    apply UInt8.toNat_inj.mp
    rw [readU16] at htype
    simp only [UInt8.toNat_zero]
    omega
  · exact ⟨stop, by omega, by omega, hzero⟩

/-- The question loop stays inside, if no question starts at the end of the request. -/
theorem questionsAccesses_inside (hq : 6 ≤ qlen) (hoff : n = 0 ∨ off ≤ qlen)
    (hcut : Uncut qlen n rb off) (hn : ipn + n ≤ 32) :
    ∀ a ∈ questionsAccesses qlen fuel alloc n d rb off ipn, a.Inside qlen slen := by
  induction n generalizing d rb off ipn with
  | zero =>
      simp only [questionsAccesses, List.mem_cons, List.not_mem_nil, or_false]
      rintro a (rfl | rfl) <;> simp only [Access.Inside] <;> omega
  | succ n ih =>
      have hlt : off < qlen := hcut.lt (hoff.resolve_left (by omega))
      have hslot : Access.Inside qlen slen (.slot ipn) := by
        simp only [Access.Inside]
        omega
      simp only [questionsAccesses, List.forall_mem_cons, List.forall_mem_append]
      refine ⟨by simp only [Access.Inside]; omega, by simp only [Access.Inside]; omega, hslot,
        skipNameAccesses_inside hlt fuel, ?_⟩
      rcases hskip : skipName qlen (qlen + 1) rb off with ⟨rb', _ | stop⟩
      · simp
      · simp only
        by_cases hroom : qlen ≤ stop + 1 + 3
        · simp [if_pos hroom]
        · have hnext := hcut.next hlt hskip
          have hoff' : n = 0 ∨ stop + 1 + 4 ≤ qlen := .inr (by omega)
          have hread : ∀ i, i ≤ 3 → Access.Inside qlen slen (.readReq (stop + 1 + i)) := by
            intro i hi
            simp only [Access.Inside]
            omega
          rw [if_neg hroom]
          simp only [List.forall_mem_cons, List.forall_mem_append]
          refine ⟨hread 0 (by omega), hread 1 (by omega), ?_, ?_⟩
          · split_ifs
            · simpa using ⟨hread 2 (by omega), hread 3 (by omega)⟩
            · simp
          · split_ifs with htype
            · simp only [List.forall_mem_cons]
              refine ⟨hslot, str_inside hskip htype.1 (by omega), ?_⟩
              cases d.find (questionName rb' off qlen) (alloc n) with
              | none => simp
              | some r =>
                  simp only
                  split_ifs
                  · simp only [List.forall_mem_cons]
                    exact ⟨hslot, ih hoff' hnext (by omega)⟩
                  · exact ih hoff' hnext (by omega)
            · exact ih hoff' hnext (by omega)

theorem questionsAccesses_fuel (hfuel : qlen < fuel) :
    questionsAccesses qlen fuel alloc n d rb off ipn =
      questionsAccesses qlen (qlen + 1) alloc n d rb off ipn := by
  induction n generalizing d rb off ipn with
  | zero => rfl
  | succ n ih =>
      simp only [questionsAccesses, ih]
      rw [skipNameAccesses_fuel (Nat.succ_pos qlen) (by omega) hfuel]

/-- The byte behind complete questions is read, when memory can be allocated and there are questions
left. -/
theorem readReq_mem_questionsAccesses (fuel ipn : ℕ) {qs : List Question} (hd : d.Inv) (hmax : 0 < d.max.toNat)
    (h : rb.Has off (sectionBytes qs)) (hlen : qs = [] ∨ off + sectionSize qs ≤ qlen)
    (hn : qs.length < n) :
    .readReq (off + sectionSize qs) ∈
      questionsAccesses qlen (fuel + 1) (fun _ => .ok) n d rb off ipn := by
  induction qs generalizing d rb off n ipn with
  | nil =>
      obtain ⟨n, rfl⟩ : ∃ k, n = k + 1 := ⟨n - 1, by rw [List.length_nil] at hn; omega⟩
      have hread : .readReq off ∈ skipNameAccesses qlen (fuel + 1) rb off :=
        readReq_mem_skipNameAccesses fuel
      simp [questionsAccesses, sectionSize, hread]
  | cons q qs ih =>
      obtain ⟨n, rfl⟩ : ∃ k, n = k + 1 := ⟨n - 1, by rw [List.length_cons] at hn; omega⟩
      rw [List.length_cons] at hn
      have hlen' : off + sectionSize (q :: qs) ≤ qlen := hlen.resolve_left (List.cons_ne_nil q qs)
      obtain ⟨rb', hskip, -, -, -, hrest⟩ := skipName_question h hlen'
      have hpos := length_nameBytes_pos q.name
      rw [sectionSize_cons, ← Nat.add_assoc] at hlen' ⊢
      rw [Question.size] at hlen' hrest ⊢
      have hstop : off + (nameBytes q.name).length - 1 + 1 + 4 =
          off + ((nameBytes q.name).length + 4) := by omega
      have hread : ∀ {d' : MappedDNS} {ipn' : ℕ}, d'.Inv → 0 < d'.max.toNat →
          .readReq (off + ((nameBytes q.name).length + 4) + sectionSize qs) ∈
            questionsAccesses qlen (fuel + 1) (fun _ => .ok) n d' rb'
              (off + (nameBytes q.name).length - 1 + 1 + 4) ipn' := by
        intro d' ipn' hd' hmax'
        rw [hstop]
        exact ih ipn' hd' hmax' hrest (.inr (by omega)) (by omega)
      simp only [questionsAccesses, hskip]
      rw [if_neg (by omega)]
      simp only [List.mem_cons, List.mem_append]
      refine .inr (.inr (.inr (.inr (.inr (.inr (.inr ?_))))))
      split_ifs with htype
      · obtain ⟨d₁, hf, h₁, -, hcfg⟩ := hd.find_sim hmax (questionName rb' off qlen)
        have hmax₁ : d₁.max = d.max := congrArg Prod.fst hcfg
        rw [hf]
        simp only [List.mem_cons]
        refine .inr (.inr ?_)
        split_ifs
        · exact List.mem_cons_of_mem _ (hread h₁ (hmax₁ ▸ hmax))
        · exact hread h₁ (hmax₁ ▸ hmax)
      · exact hread hd hmax

/-- Where the question loop leaves off. -/
theorem questions_eq_some {d' : MappedDNS} {off' : ℕ} {out out' : List (ℕ × BitVec 32)}
    (h : questions qlen alloc n d rb off out = some (d', rb', some (off', out'))) :
    off ≤ off' ∧ (off' = off ∨ off' ≤ qlen) ∧ out'.length ≤ out.length + n := by
  induction n generalizing d rb off out with
  | zero =>
      cases h
      exact ⟨le_rfl, .inl rfl, le_rfl⟩
  | succ n ih =>
      rw [questions] at h
      rcases hskip : skipName qlen (qlen + 1) rb off with ⟨rb₁, _ | stop⟩
      · rw [hskip] at h
        cases h
      · rw [hskip] at h
        obtain ⟨-, hle⟩ := zero_of_skipName hskip
        have hrest : ∀ {d₁ : MappedDNS} {out₁ : List (ℕ × BitVec 32)}, ¬ qlen ≤ stop + 1 + 3 →
            out₁.length ≤ out.length + 1 →
            questions qlen alloc n d₁ rb₁ (stop + 1 + 4) out₁ = some (d', rb', some (off', out')) →
            off ≤ off' ∧ (off' = off ∨ off' ≤ qlen) ∧ out'.length ≤ out.length + (n + 1) := by
          intro d₁ out₁ hroom hout h
          obtain ⟨h₁, h₂, h₃⟩ := ih h
          exact ⟨by omega, by omega, by omega⟩
        simp only at h
        split_ifs at h with hroom htype
        · cases h
        · simp only [Option.bind_eq_bind, Option.bind_eq_some_iff] at h
          obtain ⟨⟨d₁, idx⟩, -, h⟩ := h
          refine hrest hroom ?_ h
          split_ifs
          · simp
          · omega
        · exact hrest hroom (Nat.le_succ _) h

end questions

/-! ### The answer loop -/

section answers
variable {slen off i : ℕ} {out : List (ℕ × BitVec 32)}

theorem answersAccesses_inside (hslen : 12 ≤ slen) (hout : i + out.length ≤ 32) (qlen : ℕ) :
    ∀ a ∈ answersAccesses slen out off i, a.Inside qlen slen := by
  induction out generalizing off i with
  | nil =>
      simp only [answersAccesses, List.forall_mem_cons, Access.Inside]
      refine ⟨?_, ?_, ?_, ?_, ?_, ?_, ?_, ?_, by simp⟩ <;> omega
  | cons a out ih =>
      rw [List.length_cons] at hout
      rw [answersAccesses]
      split_ifs with hroom
      · simp
      · simp only [List.forall_mem_cons, List.forall_mem_append, List.forall_mem_map,
          List.mem_range, Access.Inside]
        exact ⟨by omega, by omega, fun j hj => by omega, ih (by omega)⟩

/-- The records end inside of the response and have been written. -/
theorem answers_eq_some {sb sb' : Mem} {n : ℕ} (h : answers slen out sb off = some (sb', n)) :
    off ≤ n ∧ (n = off ∨ n ≤ slen) ∧
      ∀ j, off ≤ j → j < n → .writeRes j ∈ answersAccesses slen out off i := by
  induction out generalizing sb off i with
  | nil =>
      cases h
      exact ⟨le_rfl, .inl rfl, fun j h₁ h₂ => absurd h₁ (not_le.mpr h₂)⟩
  | cons a out ih =>
      rw [answers] at h
      split_ifs at h with hroom
      obtain ⟨h₁, h₂, h₃⟩ := ih (i := i + 1) h
      refine ⟨by omega, by omega, fun j hj hjn => ?_⟩
      rw [answersAccesses, if_neg hroom]
      simp only [List.mem_cons, List.mem_append, List.mem_map, List.mem_range]
      by_cases hj' : j < off + 16
      · exact .inr (.inr (.inl ⟨j - off, by omega, by rw [Nat.add_sub_cancel' hj]⟩))
      · exact .inr (.inr (.inr (h₃ j (by omega) hjn)))

end answers

/-! ### The whole call -/

section handle
variable {d : MappedDNS} {req : Mem} {qlen slen : ℕ} {alloc : ℕ → Alloc}

theorem headerAccesses_inside (hq : 6 ≤ qlen) (hs : 12 ≤ slen) (hlen : qlen ≤ slen) :
    ∀ a ∈ headerAccesses qlen, a.Inside qlen slen := by
  simp only [headerAccesses, List.forall_mem_append, List.forall_mem_map, List.mem_range,
    List.forall_mem_cons, Access.Inside]
  refine ⟨⟨fun i hi => hi, fun i hi => by omega⟩, ?_, ?_, ?_, ?_, ?_, ?_, ?_, ?_, ?_, ?_, ?_, ?_,
    ?_, ?_, ?_, ?_, by simp⟩ <;> omega

theorem handleAccesses_eq (fuel : ℕ) (hlen : ¬ slen < qlen) (hqd : ¬ 32 < readU16 req 4) :
    d.handleAccesses fuel req qlen slen alloc = headerAccesses qlen ++
      (questionsAccesses qlen fuel alloc (readU16 req 4) d req 12 0 ++
      match questions qlen alloc (readU16 req 4) d req 12 [] with
      | some (_, _, some (off, out)) => answersAccesses slen out off 0
      | _ => []) := by
  rw [handleAccesses, if_neg hlen, if_neg hqd]

/-- The bytes before the records have been written by the copy and with the header. -/
theorem writeRes_mem_headerAccesses {i : ℕ} (hq : 6 ≤ qlen) (hi : i < 12 ∨ i < qlen) :
    .writeRes i ∈ headerAccesses qlen := by
  simp only [headerAccesses, List.mem_append, List.mem_map, List.mem_range, Access.writeRes.injEq,
    exists_eq_right, List.mem_cons, reduceCtorEq, false_or]
  omega

/-- Where a call can be made: a request that is longer than the response is refused at once; any
other request has the header up to `qd` and leaves room for a header in the response; and unless it
is refused for its number of questions, it does not end where a question should start. -/
def Parsable (req : Mem) (qlen slen : ℕ) : Prop :=
  slen < qlen ∨ 6 ≤ qlen ∧ 12 ≤ slen ∧ (32 < readU16 req 4 ∨
    (readU16 req 4 = 0 ∨ 12 ≤ qlen) ∧ Uncut qlen (readU16 req 4) req 12)

/-- A call that is refused has no response, so only its accesses count. -/
theorem inBounds_of_refused {acc : List Access} (res : Mem)
    (hout : slen < qlen ∨ 32 < readU16 req 4)
    (hacc : ∀ fuel, d.handleAccesses fuel req qlen slen alloc = acc)
    (hin : ∀ a ∈ acc, a.Inside qlen slen) : d.InBounds req qlen res slen alloc := by
  refine ⟨by rwa [hacc], fun fuel _ => by rw [hacc, hacc], fun h sb n hh hres => ?_⟩
  rw [handle_refused _ _ _ _ _ _ hout] at hh
  cases hh
  cases hres

/-- A response is no longer than its buffer, and all its bytes have been written. -/
theorem written_of_handle {res sb : Mem} {h : Handled} {n : ℕ} (fuel : ℕ) (hq : 6 ≤ qlen)
    (hs : 12 ≤ slen) (hlen : ¬ slen < qlen) (hqd : ¬ 32 < readU16 req 4)
    (hh : d.handle req qlen res slen alloc = some h) (hres : h.res = some (sb, n)) :
    12 ≤ n ∧ n ≤ slen ∧ ∀ i < n, .writeRes i ∈ d.handleAccesses fuel req qlen slen alloc := by
  rw [handleAccesses_eq _ hlen hqd]
  rw [handle_eq d res alloc (not_lt.mp hlen) (by omega) (not_lt.mp hqd)] at hh
  rcases hquestions : questions qlen alloc (readU16 req 4) d req 12 [] with
    _ | ⟨d', rb, _ | ⟨off, out⟩⟩
  · rw [hquestions] at hh
    cases hh
  · rw [hquestions] at hh
    cases hh
    cases hres
  · rw [hquestions] at hh
    cases hh
    simp only [finish, Option.map_eq_some_iff, Prod.mk.injEq] at hres
    obtain ⟨⟨sb', n'⟩, hans, -, rfl⟩ := hres
    obtain ⟨hoff, hoff', -⟩ := questions_eq_some hquestions
    obtain ⟨hn, hn', hrec⟩ := answers_eq_some (i := 0) hans
    simp only
    refine ⟨by omega, by omega, fun i hi => ?_⟩
    simp only [List.mem_append]
    by_cases hi' : i < off
    · exact .inl (writeRes_mem_headerAccesses hq (by omega))
    · exact .inr (.inr (hrec i (by omega) hi))

theorem Parsable.inBounds (h : Parsable req qlen slen) (d : MappedDNS) (res : Mem)
    (alloc : ℕ → Alloc) : d.InBounds req qlen res slen alloc := by
  by_cases hlen : slen < qlen
  · exact inBounds_of_refused res (.inl hlen) (fun fuel => if_pos hlen) (by simp)
  obtain ⟨hq, hs, h⟩ := h.resolve_left hlen
  have hheader := headerAccesses_inside hq hs (not_lt.mp hlen)
  by_cases hqd : 32 < readU16 req 4
  · refine inBounds_of_refused res (.inr hqd) (fun fuel => ?_) hheader
    rw [handleAccesses, if_neg hlen, if_pos hqd, List.append_nil]
  obtain ⟨h12, hcut⟩ := h.resolve_left hqd
  refine ⟨?_, ?_, fun h sb n hh hres => written_of_handle _ hq hs hlen hqd hh hres⟩
  · rw [handleAccesses_eq _ hlen hqd]
    simp only [List.forall_mem_append]
    refine ⟨hheader, questionsAccesses_inside hq h12 hcut (by omega), ?_⟩
    rcases hquestions : questions qlen alloc (readU16 req 4) d req 12 [] with
      _ | ⟨d', rb, _ | ⟨off, out⟩⟩
    · simp
    · simp
    · obtain ⟨-, -, hout⟩ := questions_eq_some hquestions
      rw [List.length_nil] at hout
      exact answersAccesses_inside hs (by omega) qlen
  · intro fuel hfuel
    rw [handleAccesses_eq _ hlen hqd, handleAccesses_eq _ hlen hqd, questionsAccesses_fuel hfuel]

/-- An access outside for a cache that can search for every name. -/
theorem parsable_of_inside (hd : d.Inv) (hmax : 0 < d.max.toNat)
    (h : ∀ a ∈ d.handleAccesses (qlen + 1) req qlen slen (fun _ => .ok), a.Inside qlen slen) :
    Parsable req qlen slen := by
  by_cases hlen : slen < qlen
  · exact .inl hlen
  refine .inr ?_
  have hheader : ∀ a ∈ headerAccesses qlen, a.Inside qlen slen := by
    intro a ha
    apply h
    rw [handleAccesses, if_neg hlen]
    exact List.mem_append_left _ ha
  have hq : 6 ≤ qlen := by
    have := hheader (.readReq 5) (by simp [headerAccesses])
    simp only [Access.Inside] at this
    omega
  have hs : 12 ≤ slen := by
    have := hheader (.writeRes 11) (by simp [headerAccesses])
    simp only [Access.Inside] at this
    omega
  refine ⟨hq, hs, ?_⟩
  by_cases hqd : 32 < readU16 req 4
  · exact .inl hqd
  -- the byte behind complete questions is read, so it is inside
  have hread : ∀ qs : List Question, qs.length < readU16 req 4 → req.Has 12 (sectionBytes qs) →
      (qs = [] ∨ 12 + sectionSize qs ≤ qlen) → 12 + sectionSize qs < qlen := by
    intro qs hqs hhas hin
    have hmem := readReq_mem_questionsAccesses qlen 0 hd hmax hhas hin hqs
    have hinside := h (.readReq (12 + sectionSize qs)) (by
      rw [handleAccesses_eq _ hlen hqd]
      exact List.mem_append_right _ (List.mem_append_left _ hmem))
    exact hinside
  refine .inr ⟨?_, ?_⟩
  · by_cases hzero : readU16 req 4 = 0
    · exact .inl hzero
    · have hlt : 12 + sectionSize [] < qlen :=
        hread [] (Nat.pos_of_ne_zero hzero) trivial (.inl rfl)
      exact .inr (Nat.le_of_lt hlt)
  · intro qs hqs hhas heq
    have hlt := hread qs hqs hhas (.inr heq.le)
    omega

end handle

/-- A call stays in bounds for a request that can be parsed, whatever is in the cache and whatever
can be allocated, and for a reachable cache it stays in bounds for no other request. -/
theorem inBounds_iff (req : Mem) (qlen : ℕ) (res : Mem) (slen : ℕ) :
    (Parsable req qlen slen → ∀ (d : MappedDNS) alloc, d.InBounds req qlen res slen alloc) ∧
    ∀ {net mask max d₀ cs d}, 1 ≤ max → construct net mask max = some d₀ → d₀.calls cs = some d →
      (d.InBounds req qlen res slen (fun _ => .ok) ↔ Parsable req qlen slen) := by
  refine ⟨fun h d alloc => h.inBounds d res alloc, ?_⟩
  intro net mask max d₀ cs d hmax h₀ hcs
  refine ⟨fun h => ?_, fun h => h.inBounds d res _⟩
  obtain ⟨hinv, hpos⟩ := calls_inv hmax h₀ hcs
  exact parsable_of_inside hinv hpos h.inside

theorem inBounds_sampleQuery : ∃ d, construct 0x64400000#32 0xffc00000#32 4 = some d ∧
    d.InBounds sampleQuery 19 sampleQuery 512 (fun _ => .ok) := by
  obtain ⟨d, hd⟩ : ∃ d, construct 0x64400000#32 0xffc00000#32 4 = some d := ⟨_, rfl⟩
  refine ⟨d, hd, (inBounds_iff sampleQuery 19 sampleQuery 512).1 ?_ d _⟩
  refine .inr ⟨by decide, by decide, .inr ⟨.inr (by decide), ?_⟩⟩
  intro qs hqs _
  have hqs' : qs.length < 1 := hqs
  rw [List.length_eq_zero_iff.mp (Nat.lt_one_iff.mp hqs')]
  decide

/-- A header that counts one question, and nothing behind it. -/
def headerOnly : Mem := fun i => [0, 1, 1, 0, 0, 1, 0, 0, 0, 0, 0, 0].getD i 0

theorem headerOnly_outside : ∃ d, construct 0x64400000#32 0xffc00000#32 4 = some d ∧
    .readReq 12 ∈ d.handleAccesses 13 headerOnly 12 1500 (fun _ => .ok) ∧
    ¬ d.InBounds headerOnly 12 headerOnly 1500 (fun _ => .ok) := by
  obtain ⟨d, hd⟩ : ∃ d, construct 0x64400000#32 0xffc00000#32 4 = some d := ⟨_, rfl⟩
  obtain ⟨hinv, hpos⟩ := calls_inv (by decide) hd (show d.calls [] = some d from rfl)
  have hread : .readReq 12 ∈ d.handleAccesses 13 headerOnly 12 1500 (fun _ => .ok) := by
    rw [handleAccesses_eq 13 (by decide) (by decide)]
    apply List.mem_append_right
    apply List.mem_append_left
    exact readReq_mem_questionsAccesses 12 0 hinv hpos (show headerOnly.Has 12 (sectionBytes []) from
      trivial) (.inl rfl) (by decide)
  exact ⟨d, hd, hread, fun h => absurd (h.inside _ hread) (lt_irrefl 12)⟩

end MappedDNS
end HevTunnel
