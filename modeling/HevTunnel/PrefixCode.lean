import Mathlib.Data.List.Basic
import Mathlib.Data.List.Infix

/-! # Words of a code that no other word begins with

A stream that is written in words of which none begins another can be read in one way only:
`Segments P x ws rest` says that `x` consists of the words `ws` and of a rest in which no further
word is complete, and `Segments.unique` that `x` determines both. -/

namespace HevTunnel

variable {α : Type*} {P : List α → Prop}

/-- Two words that the same sequence begins with are equal. -/
def PrefixFree (P : List α → Prop) : Prop :=
  ∀ ⦃v w x : List α⦄, P v → P w → v <+: x → w <+: x → v = w

/-- No word is complete at the front of the sequence. -/
def Incomplete (P : List α → Prop) (x : List α) : Prop := ∀ w, w <+: x → ¬ P w

/-- The sequence consists of the words `ws` and of a rest without a complete word. -/
structure Segments (P : List α → Prop) (x : List α) (ws : List (List α)) (rest : List α) :
    Prop where
  split : x = ws.flatten ++ rest
  words : ∀ w ∈ ws, P w
  incomplete : Incomplete P rest

namespace Segments
variable {x rest rest' : List α} {ws ws' : List (List α)}

theorem nil (h : Incomplete P rest) : Segments P rest [] rest := ⟨rfl, by simp, h⟩

theorem cons {w : List α} (hw : P w) (h : Segments P x ws rest) :
    Segments P (w ++ x) (w :: ws) rest where
  split := by rw [h.split, List.flatten_cons, List.append_assoc]
  words := List.forall_mem_cons.mpr ⟨hw, h.words⟩
  incomplete := h.incomplete

theorem append {ws₀ : List (List α)} (hws₀ : ∀ w ∈ ws₀, P w) (h : Segments P x ws rest) :
    Segments P (ws₀.flatten ++ x) (ws₀ ++ ws) rest := by
  induction ws₀ with
  | nil => exact h
  | cons w ws₀ ih =>
      rw [List.forall_mem_cons] at hws₀
      rw [List.flatten_cons, List.append_assoc]
      exact .cons hws₀.1 (ih hws₀.2)

theorem unique (hP : PrefixFree P) (h : Segments P x ws rest) (h' : Segments P x ws' rest') :
    ws = ws' ∧ rest = rest' := by
  induction ws generalizing x ws' with
  | nil =>
      obtain rfl : x = rest := h.split
      cases ws' with
      | nil => exact ⟨rfl, h'.split⟩
      | cons w ws' =>
          refine absurd (h'.words w (by simp)) (h.incomplete w ?_)
          rw [h'.split, List.flatten_cons, List.append_assoc]
          exact List.prefix_append _ _
  | cons v ws ih =>
      have hv : v <+: x := by
        rw [h.split, List.flatten_cons, List.append_assoc]
        exact List.prefix_append _ _
      cases ws' with
      | nil =>
          obtain rfl : x = rest' := h'.split
          exact absurd (h.words v (by simp)) (h'.incomplete v hv)
      | cons w ws' =>
          have hw : w <+: x := by
            rw [h'.split, List.flatten_cons, List.append_assoc]
            exact List.prefix_append _ _
          obtain rfl := hP (h.words v (by simp)) (h'.words w (by simp)) hv hw
          -- behind the common word both are segments of what is left
          have hx := h.split.symm.trans h'.split
          rw [List.flatten_cons, List.flatten_cons, List.append_assoc, List.append_assoc] at hx
          have hrest := List.append_cancel_left hx
          obtain ⟨rfl, rfl⟩ := ih (x := ws.flatten ++ rest) ⟨rfl, fun u hu => h.words u (by simp [hu]),
            h.incomplete⟩ ⟨hrest, fun u hu => h'.words u (by simp [hu]), h'.incomplete⟩
          exact ⟨rfl, rfl⟩

end Segments

end HevTunnel
