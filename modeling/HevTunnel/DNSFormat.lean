import HevTunnel.CString

/-! # The format of DNS messages

* A name is a list of labels, each behind its length, closed by a zero byte (`nameBytes`).
  `dotted` is its usual form.
* A question is a name, a type and a class.
* `ReadsName m len off name`: a resolver that reads the message of length `len` in `m` finds the
  name at `off`.  There a name may end in a compression pointer, two bytes `11` and an offset of 14
  bits, to an earlier place in the message.

`ReadsName.unique` says that there is one name at most, and `ReadsName.local` that reading a name
depends only on the bytes before the end that it would have without compression. -/

namespace HevTunnel

/-- The memory from `off` on starts with these bytes. -/
def Mem.Has (m : Mem) : ℕ → List Byte → Prop
  | _, [] => True
  | off, b :: bs => m off = b ∧ Mem.Has m (off + 1) bs

theorem Mem.write_ne {m : Mem} {a i : ℕ} {v : Byte} (h : i ≠ a) : m.write a v i = m i := if_neg h

section has
variable {m m' : Mem} {off : ℕ}

theorem Mem.has_append {as bs : List Byte} :
    m.Has off (as ++ bs) ↔ m.Has off as ∧ m.Has (off + as.length) bs := by
  induction as generalizing off with
  | nil => simp [Mem.Has]
  | cons a as ih =>
      rw [List.cons_append, Mem.Has, Mem.Has, ih, List.length_cons, and_assoc,
        show off + 1 + as.length = off + (as.length + 1) by omega]

/-- Memory that agrees on the bytes has them as well. -/
theorem Mem.Has.congr {bs : List Byte} (h : m.Has off bs)
    (heq : ∀ i, off ≤ i → i < off + bs.length → m' i = m i) : m'.Has off bs := by
  induction bs generalizing off with
  | nil => trivial
  | cons b bs ih =>
      rw [List.length_cons] at heq
      refine ⟨(heq off (by omega) (by omega)).trans h.1, ih h.2 ?_⟩
      intro i hi hi'
      exact heq i (by omega) (by omega)

/-- Two lists of the same length in one place are equal. -/
theorem Mem.Has.unique {as bs : List Byte} (h : m.Has off as) (h' : m.Has off bs)
    (hlen : as.length = bs.length) : as = bs := by
  induction as generalizing off bs with
  | nil =>
      cases bs with
      | nil => rfl
      | cons b bs => cases hlen
  | cons a as ih =>
      cases bs with
      | nil => cases hlen
      | cons b bs =>
          rw [← h.1, ← h'.1, ih h.2 h'.2 (by simpa using hlen)]

/-- The bytes of the memory from `off` on. -/
theorem Mem.has_getD (pre bs : List Byte) :
    Mem.Has (fun i => (pre ++ bs).getD i 0) pre.length bs := by
  induction bs generalizing pre with
  | nil => trivial
  | cons b bs ih =>
      refine ⟨by simp, ?_⟩
      have h := ih (pre ++ [b])
      rwa [List.length_append, List.append_assoc, List.singleton_append] at h

theorem Mem.has_range (m : Mem) (off n : ℕ) :
    m.Has off ((List.range n).map (fun i => m (off + i))) := by
  induction n generalizing off with
  | zero => trivial
  | succ n ih =>
      have htail : (List.range n).map (fun i => m (off + (i + 1))) =
          (List.range n).map (fun i => m (off + 1 + i)) := by
        apply List.map_congr_left
        intro i _
        rw [show off + (i + 1) = off + 1 + i by omega]
      rw [List.range_succ_eq_map, List.map_cons, List.map_map]
      exact ⟨rfl, htail ▸ ih (off + 1)⟩

end has

namespace DNS

/-- A label, as long as its length byte can say. -/
structure Label where
  bytes : List Byte
  pos : 0 < bytes.length
  short : bytes.length ≤ 255

/-- The length byte of a label. -/
def Label.lengthByte (l : Label) : Byte := UInt8.ofNat l.bytes.length

@[simp] theorem Label.toNat_lengthByte (l : Label) : l.lengthByte.toNat = l.bytes.length := by
  have := l.short
  simp only [lengthByte, UInt8.toNat_ofNat']
  omega

theorem Label.lengthByte_ne_zero (l : Label) : l.lengthByte ≠ 0 := by
  intro h
  have hpos := l.pos
  have hz : l.lengthByte.toNat = 0 := by rw [h]; rfl
  rw [toNat_lengthByte] at hz
  omega

def nameBytes : List Label → List Byte
  | [] => [0]
  | l :: ls => l.lengthByte :: (l.bytes ++ nameBytes ls)

theorem length_nameBytes_pos (ls : List Label) : 0 < (nameBytes ls).length := by
  cases ls <;> simp [nameBytes]

theorem length_nameBytes_cons (l : Label) (ls : List Label) :
    (nameBytes (l :: ls)).length = 1 + l.bytes.length + (nameBytes ls).length := by
  simp only [nameBytes, List.length_cons, List.length_append]
  omega

/-- There are fewer labels than bytes. -/
theorem length_lt_nameBytes (ls : List Label) : ls.length < (nameBytes ls).length := by
  induction ls with
  | nil => decide
  | cons l ls ih =>
      rw [length_nameBytes_cons, List.length_cons]
      omega

/-- The labels with dots between them. -/
def dotted : List Label → List Byte
  | [] => []
  | [l] => l.bytes
  | l :: ls => l.bytes ++ 46 :: dotted ls

/-- Two bytes, the higher one first. -/
def be16 (v : UInt16) : List Byte := [UInt8.ofNat (v.toNat / 256), UInt8.ofNat v.toNat]

structure Question where
  name : List Label
  qtype : UInt16
  qclass : UInt16

namespace Question

def bytes (q : Question) : List Byte := nameBytes q.name ++ (be16 q.qtype ++ be16 q.qclass)

def size (q : Question) : ℕ := (nameBytes q.name).length + 4

@[simp] theorem length_bytes (q : Question) : q.bytes.length = q.size := by
  simp [bytes, size, be16]

/-- Type `A` and class `IN`. -/
def AsksA (q : Question) : Prop := q.qtype = 1 ∧ q.qclass = 1

instance (q : Question) : Decidable q.AsksA :=
  inferInstanceAs (Decidable (q.qtype = 1 ∧ q.qclass = 1))

end Question

/-- The size of a question section. -/
def sectionSize (qs : List Question) : ℕ := (qs.map Question.size).sum

/-- The bytes of a question section. -/
def sectionBytes (qs : List Question) : List Byte := qs.flatMap Question.bytes

theorem sectionSize_cons (q : Question) (qs : List Question) :
    sectionSize (q :: qs) = q.size + sectionSize qs := by
  simp [sectionSize]

/-! ### Reading a name -/

/-- A resolver finds the name at `off` of the message of length `len`. -/
inductive ReadsName (m : Mem) (len : ℕ) : ℕ → List Label → Prop
  | root {off : ℕ} : off < len → m off = 0 → ReadsName m len off []
  | label {off : ℕ} {l : Label} {ls : List Label} : l.bytes.length ≤ 63 →
      off + 1 + l.bytes.length ≤ len → m.Has off (l.lengthByte :: l.bytes) →
      ReadsName m len (off + 1 + l.bytes.length) ls → ReadsName m len off (l :: ls)
  | pointer {off target : ℕ} {ls : List Label} : off + 2 ≤ len → target < 2 ^ 14 → target < off →
      m off = UInt8.ofNat (0xc0 + target / 256) → m (off + 1) = UInt8.ofNat target →
      ReadsName m len target ls → ReadsName m len off ls

section reads
variable {m m' : Mem} {len len' off : ℕ} {ls : List Label}

/-- A name without compression is read. -/
theorem readsName_of_has (hls : ∀ l ∈ ls, l.bytes.length ≤ 63) (h : m.Has off (nameBytes ls))
    (hlen : off + (nameBytes ls).length ≤ len) : ReadsName m len off ls := by
  induction ls generalizing off with
  | nil =>
      simp only [nameBytes, List.length_singleton] at hlen
      exact .root (by omega) h.1
  | cons l ls ih =>
      rw [length_nameBytes_cons] at hlen
      rw [nameBytes, ← List.cons_append, Mem.has_append, List.length_cons] at h
      refine .label (hls l (by simp)) (by omega) h.1 (ih ?_ ?_ (by omega))
      · exact fun l' hl' => hls l' (List.mem_cons_of_mem _ hl')
      · rw [show off + 1 + l.bytes.length = off + (l.bytes.length + 1) by omega]
        exact h.2

/-- Only the bytes before the end of the uncompressed name and one more matter. -/
theorem ReadsName.local (h : ReadsName m len off ls) {e : ℕ}
    (he : off + (nameBytes ls).length < e) (hlen : e ≤ len') (heq : ∀ i < e, m' i = m i) :
    ReadsName m' len' off ls := by
  induction h with
  | root hoff hz =>
      simp only [nameBytes, List.length_singleton] at he
      exact .root (by omega) ((heq _ (by omega)).trans hz)
  | @label off l ls hl hoff hhas h ih =>
      rw [length_nameBytes_cons] at he
      refine .label hl (by omega) (hhas.congr ?_) (ih (by omega))
      intro i _ hi
      rw [List.length_cons] at hi
      exact heq i (by omega)
  | @pointer off target ls hoff ht hlt h₀ h₁ h ih =>
      have hpos := length_nameBytes_pos ls
      exact .pointer (by omega) ht hlt ((heq off (by omega)).trans h₀)
        ((heq (off + 1) (by omega)).trans h₁) (ih (by omega))

theorem toNat_pointerByte {target : ℕ} (h : target < 2 ^ 14) :
    (UInt8.ofNat (0xc0 + target / 256)).toNat = 0xc0 + target / 256 := by
  simp only [UInt8.toNat_ofNat']
  omega

/-- The two bytes of a pointer determine its offset. -/
theorem pointer_inj {a b : ℕ} (ha : a < 2 ^ 14) (hb : b < 2 ^ 14)
    (h₀ : UInt8.ofNat (0xc0 + a / 256) = UInt8.ofNat (0xc0 + b / 256))
    (h₁ : UInt8.ofNat a = UInt8.ofNat b) : a = b := by
  have h₀' := congrArg UInt8.toNat h₀
  have h₁' := congrArg UInt8.toNat h₁
  rw [toNat_pointerByte ha, toNat_pointerByte hb] at h₀'
  simp only [UInt8.toNat_ofNat'] at h₁'
  omega

/-- There is at most one name in a place: the first byte tells how to go on. -/
theorem ReadsName.unique (h : ReadsName m len off ls) {ls' : List Label}
    (h' : ReadsName m len' off ls') : ls = ls' := by
  induction h generalizing ls' with
  | root hoff hz =>
      cases h' with
      | root => rfl
      | @label _ l _ _ _ hhas _ => exact absurd (hhas.1.symm.trans hz) l.lengthByte_ne_zero
      | pointer _ ht _ h₀ _ _ =>
          have := congrArg UInt8.toNat (h₀.symm.trans hz)
          rw [toNat_pointerByte ht] at this
          exact absurd this (by simp)
  | @label off l ls hl hoff hhas h ih =>
      cases h' with
      | root _ hz => exact absurd (hhas.1.symm.trans hz) l.lengthByte_ne_zero
      | @label _ l' _ _ _ hhas' hrest =>
          have hlen := congrArg UInt8.toNat (hhas.1.symm.trans hhas'.1)
          rw [l.toNat_lengthByte, l'.toNat_lengthByte] at hlen
          have hl' : l = l' := by
            cases l
            cases l'
            cases hhas.2.unique hhas'.2 hlen
            rfl
          subst hl'
          rw [ih hrest]
      | pointer _ ht _ h₀ _ _ =>
          have := congrArg UInt8.toNat (hhas.1.symm.trans h₀)
          rw [l.toNat_lengthByte, toNat_pointerByte ht] at this
          omega
  | pointer hoff ht hlt h₀ h₁ h ih =>
      cases h' with
      | root _ hz =>
          have := congrArg UInt8.toNat (h₀.symm.trans hz)
          rw [toNat_pointerByte ht] at this
          exact absurd this (by simp)
      | @label _ l _ hl _ hhas _ =>
          have := congrArg UInt8.toNat (hhas.1.symm.trans h₀)
          rw [l.toNat_lengthByte, toNat_pointerByte ht] at this
          omega
      | pointer _ ht' _ h₀' h₁' h' =>
          obtain rfl := pointer_inj ht ht' (h₀.symm.trans h₀') (h₁.symm.trans h₁')
          exact ih h'

end reads

end DNS

end HevTunnel
