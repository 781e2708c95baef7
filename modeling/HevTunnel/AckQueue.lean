import Mathlib.Data.List.Basic

/-! # Queues with an acknowledged tail

An `AckQueue` is a queue whose elements are released some time after they have been taken.  It is
given by all elements that were ever appended and by two positions in them: how many were taken,
and how many of these were released.  Between the positions lie the lent elements, and behind the
second one the unread elements.

`step_cases` is what an operation does to the two parts, and `exists_step_iff` is when it is
possible.  A refinement compares the two parts with a representation of the queue. -/

namespace HevTunnel

/-- An operation on a queue: append elements, take some from the front, or release the oldest of
those that were taken. -/
inductive QueueOp (α : Type*) where
  | write (xs : List α)
  | read (n : ℕ)
  | release (n : ℕ)

/-- The elements appended so far, how many of them were taken, and how many released.  At most `cap`
elements are not released. -/
structure AckQueue (α : Type*) (cap : ℕ) where
  written : List α
  taken : ℕ
  released : ℕ
  released_le : released ≤ taken
  taken_le : taken ≤ written.length
  written_le : written.length ≤ released + cap

namespace AckQueue
variable {α : Type*} {cap : ℕ}

def empty : AckQueue α cap := ⟨[], 0, 0, Nat.le_refl _, Nat.le_refl _, Nat.zero_le _⟩

def lent (q : AckQueue α cap) : List α := (q.written.take q.taken).drop q.released

def unread (q : AckQueue α cap) : List α := q.written.drop q.taken

def step (q : AckQueue α cap) : QueueOp α → Option (AckQueue α cap)
  | .write xs =>
      if h : q.written.length + xs.length ≤ q.released + cap then
        some { q with
          written := q.written ++ xs
          taken_le := by rw [List.length_append]; exact Nat.le_add_right_of_le q.taken_le
          written_le := by rw [List.length_append]; exact h }
      else none
  | .read n =>
      if h : q.taken + n ≤ q.written.length then
        some { q with
          taken := q.taken + n
          released_le := Nat.le_add_right_of_le q.released_le
          taken_le := h }
      else none
  | .release n =>
      if h : q.released + n ≤ q.taken then
        some { q with
          released := q.released + n
          released_le := h
          written_le := by have := q.written_le; omega }
      else none

theorem length_lent (q : AckQueue α cap) : q.lent.length = q.taken - q.released := by
  rw [lent, List.length_drop, List.length_take, Nat.min_eq_left q.taken_le]

theorem length_unread (q : AckQueue α cap) : q.unread.length = q.written.length - q.taken := by
  rw [unread, List.length_drop]

/-- What is not released is lent or unread. -/
theorem lent_append_unread (q : AckQueue α cap) :
    q.lent ++ q.unread = q.written.drop q.released := by
  have hle : q.released ≤ (q.written.take q.taken).length := by
    rw [List.length_take, Nat.min_eq_left q.taken_le]
    exact q.released_le
  rw [lent, unread, ← List.drop_append_of_le_length hle, List.take_append_drop]

/-- What an operation does to the lent and the unread elements. -/
theorem step_cases {q q' : AckQueue α cap} {x : QueueOp α} (h : q.step x = some q') :
    (∃ xs, x = .write xs ∧ q'.written = q.written ++ xs ∧ q'.taken = q.taken ∧
      q'.lent = q.lent ∧ q'.unread = q.unread ++ xs) ∨
    (∃ n, x = .read n ∧ q'.written = q.written ∧ q'.taken = q.taken + n ∧
      q'.lent = q.lent ++ q.unread.take n ∧ q'.unread = q.unread.drop n) ∨
    (∃ n, x = .release n ∧ q'.written = q.written ∧ q'.taken = q.taken ∧
      q'.lent = q.lent.drop n ∧ q'.unread = q.unread) := by
  cases x with
  | write xs =>
      rw [step] at h
      split_ifs at h
      cases h
      refine .inl ⟨xs, rfl, rfl, rfl, ?_, ?_⟩
      · show ((q.written ++ xs).take q.taken).drop q.released = _
        rw [List.take_append_of_le_length q.taken_le]
        rfl
      · exact List.drop_append_of_le_length q.taken_le
  | read n =>
      rw [step] at h
      split_ifs at h with hn
      cases h
      refine .inr (.inl ⟨n, rfl, rfl, rfl, ?_, ?_⟩)
      · show (q.written.take (q.taken + n)).drop q.released = _
        rw [List.take_add, List.drop_append_of_le_length]
        · rfl
        · rw [List.length_take, Nat.min_eq_left q.taken_le]
          exact q.released_le
      · show q.written.drop (q.taken + n) = (q.written.drop q.taken).drop n
        rw [List.drop_drop]
  | release n =>
      rw [step] at h
      split_ifs at h
      cases h
      refine .inr (.inr ⟨n, rfl, rfl, rfl, ?_, rfl⟩)
      show (q.written.take q.taken).drop (q.released + n) = ((q.written.take q.taken).drop q.released).drop n
      rw [List.drop_drop]

/-- The lent and the unread elements leave room for the operation. -/
def Allows (q : AckQueue α cap) : QueueOp α → Prop
  | .write xs => xs.length ≤ cap - (q.lent.length + q.unread.length)
  | .read n => n ≤ q.unread.length
  | .release n => n ≤ q.lent.length

theorem exists_step_iff (q : AckQueue α cap) (x : QueueOp α) :
    (∃ q', q.step x = some q') ↔ q.Allows x := by
  have h₁ := q.released_le
  have h₂ := q.taken_le
  have h₃ := q.written_le
  have hlent := q.length_lent
  have hunread := q.length_unread
  cases x with
  | write xs =>
      simp only [step, Allows]
      split_ifs with h
      · exact iff_of_true ⟨_, rfl⟩ (by omega)
      · exact iff_of_false (by simp) (by omega)
  | read n =>
      simp only [step, Allows]
      split_ifs with h
      · exact iff_of_true ⟨_, rfl⟩ (by omega)
      · exact iff_of_false (by simp) (by omega)
  | release n =>
      simp only [step, Allows]
      split_ifs with h
      · exact iff_of_true ⟨_, rfl⟩ (by omega)
      · exact iff_of_false (by simp) (by omega)

end AckQueue

end HevTunnel
