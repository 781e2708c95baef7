import Mathlib.Algebra.Order.Ring.Nat
import Mathlib.Data.List.Lex

/-! # Bytes and C strings

The parts of the C library that the comparisons of the program rest on.

* `memcmp` is the difference of the first two bytes that differ, as unsigned numbers.
* A `CStr` is what a `char *` points to: the bytes before the terminating `NUL`.  The
  structure carries the proof that none of them is `NUL`, so two strings are equal as soon as
  `strcmp` says so (`strcmp_eq_zero`).
* `cstrAt` reads a string out of memory.

The sign of `strcmp` is the lexicographic order of the byte values (`strcmp_neg`,
`strcmp_pos`), from which the ordering facts used by the search trees follow. -/

namespace HevTunnel

abbrev Byte := UInt8

/-- `memcmp` over the bytes that both areas have. -/
def memcmp : List Byte → List Byte → Int
  | a :: as, b :: bs => if a = b then memcmp as bs else (a.toNat : Int) - b.toNat
  | _, _ => 0

/-- The bytes of a string, without the terminating `NUL`. -/
structure CStr where
  bytes : List Byte
  noNul : (0 : Byte) ∉ bytes
deriving DecidableEq

namespace CStr

theorem ext {a b : CStr} (h : a.bytes = b.bytes) : a = b := by
  cases a; cases b; cases h; rfl

/-- The byte values, compared lexicographically. -/
def key (s : CStr) : List ℕ := s.bytes.map UInt8.toNat

theorem key_inj {a b : CStr} : a.key = b.key ↔ a = b := by
  constructor
  · intro h
    exact ext (List.map_injective_iff.mpr (fun x y hxy => UInt8.toNat_inj.mp hxy) h)
  · rintro rfl
    rfl

end CStr

/-- `strcmp` compares up to and including the terminating `NUL`. -/
def strcmp (a b : CStr) : Int := memcmp (a.bytes ++ [0]) (b.bytes ++ [0])

/-- The sign of the comparison of two terminated strings. -/
theorem memcmp_terminated : ∀ (a b : List Byte), (0 : Byte) ∉ a → (0 : Byte) ∉ b →
    (memcmp (a ++ [0]) (b ++ [0]) < 0 ↔ a.map UInt8.toNat < b.map UInt8.toNat) ∧
    (memcmp (a ++ [0]) (b ++ [0]) = 0 ↔ a = b)
  | [], [], _, _ => by simp [memcmp]
  | [], y :: ys, _, hb => by
      have hy : (0 : Byte) ≠ y := fun h => hb (by simp [h])
      have hy' : y.toNat ≠ 0 := fun h => hy (UInt8.toNat_inj.mp (by simp [h]))
      simp only [List.nil_append, List.cons_append, memcmp, if_neg hy]
      refine ⟨by simp; omega, by simp; omega⟩
  | x :: xs, [], ha, _ => by
      have hx : x ≠ (0 : Byte) := fun h => ha (by simp [h])
      have hx' : x.toNat ≠ 0 := fun h => hx (UInt8.toNat_inj.mp (by simp [h]))
      simp only [List.nil_append, List.cons_append, memcmp, if_neg hx]
      refine ⟨by simp, by simp; omega⟩
  | x :: xs, y :: ys, ha, hb => by
      have ih := memcmp_terminated xs ys (fun h => ha (List.mem_cons_of_mem _ h))
        (fun h => hb (List.mem_cons_of_mem _ h))
      simp only [List.cons_append, memcmp, List.map_cons, List.cons_lt_cons_iff, List.cons.injEq]
      by_cases h : x = y
      · subst h
        simp [ih]
      · have h' : x.toNat ≠ y.toNat := fun e => h (UInt8.toNat_inj.mp e)
        rw [if_neg h]
        simp only [h, h', false_and, or_false, iff_false]
        omega

theorem strcmp_neg {a b : CStr} : strcmp a b < 0 ↔ a.key < b.key :=
  (memcmp_terminated a.bytes b.bytes a.noNul b.noNul).1

theorem strcmp_eq_zero {a b : CStr} : strcmp a b = 0 ↔ a = b := by
  rw [strcmp, (memcmp_terminated a.bytes b.bytes a.noNul b.noNul).2]
  exact ⟨CStr.ext, fun h => h ▸ rfl⟩

/-- A comparison whose sign is that of an order below zero and at zero has it above zero. -/
theorem pos_iff_of_neg_iff {κ : Type*} [LinearOrder κ] {x : Int} {a b : κ} (hneg : x < 0 ↔ a < b)
    (hzero : x = 0 ↔ a = b) : 0 < x ↔ b < a := by
  have hle : a ≤ b ↔ x ≤ 0 := by
    rw [le_iff_lt_or_eq, ← hneg, ← hzero]
    omega
  calc
    0 < x ↔ ¬ x ≤ 0 := by omega
    _ ↔ ¬ a ≤ b := (not_congr hle).symm
    _ ↔ b < a := not_le

theorem strcmp_pos {a b : CStr} : 0 < strcmp a b ↔ b.key < a.key :=
  pos_iff_of_neg_iff strcmp_neg (strcmp_eq_zero.trans CStr.key_inj.symm)

/-- Memory from some address on. -/
abbrev Mem := ℕ → Byte

/-- Write `v` at `a`. -/
def Mem.write (m : Mem) (a : ℕ) (v : Byte) : Mem := fun x => if x = a then v else m x

/-- Read at most `n` bytes of a string at `i`. -/
def cstrAt (mem : Mem) (i : ℕ) : ℕ → List Byte
  | 0 => []
  | n + 1 => if mem i = 0 then [] else mem i :: cstrAt mem (i + 1) n

theorem zero_notMem_cstrAt (mem : Mem) (i n : ℕ) : (0 : Byte) ∉ cstrAt mem i n := by
  induction n generalizing i with
  | zero => simp [cstrAt]
  | succ n ih =>
      rw [cstrAt]
      split_ifs with h
      · simp
      · intro h0
        rcases List.mem_cons.mp h0 with h0 | h0
        · exact h h0.symm
        · exact ih _ h0

/-- The sign of `memcmp` of two areas of the same size. -/
theorem memcmp_sameLength : ∀ {a b : List Byte}, a.length = b.length →
    (memcmp a b < 0 ↔ a.map UInt8.toNat < b.map UInt8.toNat) ∧ (memcmp a b = 0 ↔ a = b)
  | [], [], _ => by simp [memcmp]
  | x :: xs, y :: ys, h => by
      have ih := memcmp_sameLength (a := xs) (b := ys) (by simpa using h)
      simp only [memcmp, List.map_cons, List.cons_lt_cons_iff, List.cons.injEq]
      by_cases hxy : x = y
      · simp [hxy, ih]
      · have h' : x.toNat ≠ y.toNat := fun e => hxy (UInt8.toNat_inj.mp e)
        rw [if_neg hxy]
        simp only [hxy, h', false_and, or_false, iff_false]
        omega

end HevTunnel
