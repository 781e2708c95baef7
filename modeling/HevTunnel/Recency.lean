import Mathlib.Data.List.Basic
import Mathlib.Data.Nat.Basic
import Mathlib.Logic.Function.Basic

/-! # Sequences in the order of last use

`Recency f now xs` says that the sequence is in the order of the times `f`, all of which are past.  An
element that is touched gets the present time (`touch`).  `Recency.moved` is the rule: the order stays
if elements leave the sequence and the touched one goes to the end of it. -/

namespace HevTunnel

variable {α : Type*} [DecidableEq α]

/-- The times after an element has been touched, if any has. -/
def touch (f : α → ℕ) (now : ℕ) (touched : Option α) : α → ℕ :=
  fun x => if touched = some x then now else f x

theorem update_eq_touch (f : α → ℕ) (now : ℕ) (x : α) :
    Function.update f x now = touch f now (some x) := by
  funext y
  simp [Function.update_apply, touch, eq_comm]

/-- Some elements have left the sequence, and the one that is touched may have become the last; it is
nowhere else. -/
def Moved (touched : Option α) (xs xs' : List α) : Prop :=
  ∃ ys, ys.Sublist xs ∧ (∀ x ∈ touched, x ∉ ys) ∧ (xs' = ys ∨ xs' = ys ++ touched.toList)

/-- The sequence is in the order of the times, which are past. -/
structure Recency (f : α → ℕ) (now : ℕ) (xs : List α) : Prop where
  past : ∀ x ∈ xs, f x < now
  order : xs.Pairwise (fun x y => f x < f y)

section rules
variable {f : α → ℕ} {now : ℕ} {xs xs' : List α} {touched : Option α}

omit [DecidableEq α] in
theorem Moved.refl (hnot : ∀ x ∈ touched, x ∉ xs) : Moved touched xs xs :=
  ⟨xs, .refl xs, hnot, .inl rfl⟩

omit [DecidableEq α] in
theorem Moved.append {x : α} {ys : List α} (hsub : ys.Sublist xs) (hx : x ∉ ys) :
    Moved (some x) xs (ys ++ [x]) := by
  refine ⟨ys, hsub, ?_, .inr rfl⟩
  rintro y ⟨⟩
  exact hx

theorem touch_of_not_mem {x : α} (hx : x ∉ touched) : touch f now touched x = f x := if_neg hx

theorem touch_self (x : α) : touch f now (some x) x = now := if_pos rfl

theorem Recency.moved (h : Recency f now xs) (hm : Moved touched xs xs') :
    Recency (touch f now touched) (now + 1) xs' := by
  obtain ⟨ys, hsub, hnot, hxs⟩ := hm
  have hsame : ∀ y ∈ ys, touch f now touched y = f y := fun y hy =>
    touch_of_not_mem (fun hy' => hnot y hy' hy)
  have hpast : ∀ y ∈ ys, touch f now touched y < now := by
    intro y hy
    rw [hsame y hy]
    exact h.past y (hsub.subset hy)
  have horder : ys.Pairwise (fun x y => touch f now touched x < touch f now touched y) := by
    refine (h.order.sublist hsub).imp_of_mem ?_
    intro x y hx hy hlt
    rw [hsame x hx, hsame y hy]
    exact hlt
  have hys : Recency (touch f now touched) (now + 1) ys :=
    ⟨fun y hy => Nat.lt_succ_of_lt (hpast y hy), horder⟩
  rcases hxs with rfl | rfl
  · exact hys
  cases touched with
  | none => simpa using hys
  | some x =>
      -- the last element has the present time, and the others are older
      refine ⟨?_, List.pairwise_append.mpr ⟨horder, by simp, ?_⟩⟩
      · intro y hy
        rcases List.mem_append.mp hy with hy | hy
        · exact hys.past y hy
        · obtain rfl : y = x := by simpa using hy
          rw [touch_self]
          exact Nat.lt_succ_self now
      · intro y hy z hz
        obtain rfl : z = x := by simpa using hz
        rw [touch_self]
        exact hpast y hy

end rules

end HevTunnel
