import Mathlib.Data.List.Nodup
import Mathlib.Logic.Function.Basic

/-! # Singly linked lists

A list is a pointer to its first node, and each node has a link to the next one.  `next x` is the link
of the node `x`, and `none` if there is no such node.  `Chain next p xs` says that the nodes from `p` on
are `xs`. -/

namespace HevTunnel

namespace LinkedStack

variable {α : Type*} {next next' : α → Option (Option α)} {p q : Option α} {x : α} {xs : List α}

/-- The nodes from a pointer on. -/
def Chain (next : α → Option (Option α)) : Option α → List α → Prop
  | p, [] => p = none
  | p, x :: xs => p = some x ∧ ∃ q, next x = some q ∧ Chain next q xs

theorem Chain.head?_eq (h : Chain next p xs) : p = xs.head? := by
  cases xs with
  | nil => exact h
  | cons x xs => exact h.1

/-- The links of other nodes do not matter. -/
theorem Chain.congr (h : Chain next p xs) (heq : ∀ x ∈ xs, next' x = next x) :
    Chain next' p xs := by
  induction xs generalizing p with
  | nil => exact h
  | cons x xs ih =>
      obtain ⟨hp, q, hq, hrest⟩ := h
      exact ⟨hp, q, (heq x List.mem_cons_self).trans hq,
        ih hrest fun y hy => heq y (List.mem_cons_of_mem _ hy)⟩

/-- A pointer that is not `NULL` points to a node. -/
theorem Chain.first (h : Chain next p xs) (hx : p = some x) :
    ∃ q ys, next x = some q ∧ xs = x :: ys ∧ Chain next q ys := by
  cases xs with
  | nil => exact absurd (hx.symm.trans h) (by simp)
  | cons y ys =>
      obtain ⟨hy, q, hq, hrest⟩ := h
      obtain rfl := Option.some_inj.mp (hx.symm.trans hy)
      exact ⟨q, ys, hq, rfl, hrest⟩

section update
variable [DecidableEq α]

/-- A node that is not in the list may change or go. -/
theorem Chain.update (h : Chain next p xs) (hx : x ∉ xs) (q : Option (Option α)) :
    Chain (Function.update next x q) p xs :=
  h.congr fun _ hy => Function.update_of_ne (ne_of_mem_of_not_mem hy hx) ..

/-- A new node in front of the list. -/
theorem Chain.push (h : Chain next p xs) (hx : x ∉ xs) :
    Chain (Function.update next x (some p)) (some x) (x :: xs) :=
  ⟨rfl, p, Function.update_self .., h.update hx _⟩

end update

end LinkedStack

end HevTunnel
