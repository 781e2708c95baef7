import Mathlib.Algebra.Order.BigOperators.Group.List
import Mathlib.Data.Multiset.AddSub
import Mathlib.Data.Multiset.UnionInter
import Mathlib.Algebra.BigOperators.Group.Multiset.Basic
import Mathlib.Logic.Function.Basic

/-! # Pieces of a memory

A memory is a partial function from addresses to values.  A `Piece` owns some of the addresses and
says what is stored there.  `Owns m ps` says that the pieces `ps` hold in `m` and that no address is
owned twice.

The rules are for programs that follow pointers.  `Owns.get` reads what a piece says, `Owns.replace`
changes the memory inside one piece and leaves the others alone, and `Owns.regroup` cuts the same
addresses into other pieces. -/

namespace HevTunnel

variable {κ ν : Type*}

/-- A part of a memory: the addresses that it owns, and what is stored at them. -/
structure Piece (κ ν : Type*) where
  foot : Multiset κ
  holds : (κ → Option ν) → Prop
  congr : ∀ {m m'}, (∀ k ∈ foot, m' k = m k) → holds m → holds m'

/-- All addresses of some pieces. -/
def feet (ps : List (Piece κ ν)) : Multiset κ := (ps.map Piece.foot).sum

@[simp] theorem feet_nil : feet ([] : List (Piece κ ν)) = 0 := rfl

@[simp] theorem feet_cons (p : Piece κ ν) (ps : List (Piece κ ν)) :
    feet (p :: ps) = p.foot + feet ps := rfl

theorem feet_append (ps qs : List (Piece κ ν)) : feet (ps ++ qs) = feet ps + feet qs := by
  simp [feet]

theorem mem_feet {ps : List (Piece κ ν)} {k : κ} : k ∈ feet ps ↔ ∃ p ∈ ps, k ∈ p.foot := by
  induction ps with
  | nil => simp
  | cons p ps ih => simp [ih]

/-- The pieces hold, and they are disjoint. -/
structure Owns (m : κ → Option ν) (ps : List (Piece κ ν)) : Prop where
  holds : ∀ p ∈ ps, p.holds m
  nodup : (feet ps).Nodup

namespace Owns

variable {m m' : κ → Option ν} {ps qs : List (Piece κ ν)} {p q : Piece κ ν} {i j : ℕ}

theorem get (h : Owns m ps) (hi : ps[i]? = some p) : p.holds m :=
  h.holds p (List.mem_of_getElem? hi)

/-- The same addresses or some of them, cut into other pieces. -/
theorem regroup (h : Owns m ps) (hfeet : feet qs ≤ feet ps) (hqs : ∀ q ∈ qs, q.holds m) :
    Owns m qs := ⟨hqs, Multiset.nodup_of_le hfeet h.nodup⟩

/-- A list around one of its members. -/
theorem split_at (hi : ps[i]? = some p) :
    ps = ps.take i ++ p :: ps.drop (i + 1) ∧
      ∀ q, ps.set i q = ps.take i ++ q :: ps.drop (i + 1) := by
  obtain ⟨hlt, hget⟩ := List.getElem?_eq_some_iff.mp hi
  refine ⟨?_, fun q => List.set_eq_take_append_cons_drop .. |>.trans (if_pos hlt)⟩
  rw [← hget, List.cons_getElem_drop_succ, List.take_append_drop]

/-- The addresses of one piece and of the pieces around it. -/
theorem disjoint_rest (h : Owns m ps) (hi : ps[i]? = some p) {k : κ} (hk : k ∈ p.foot) :
    ∀ q ∈ ps.take i ++ ps.drop (i + 1), k ∉ q.foot := by
  have hnd := h.nodup
  rw [(split_at hi).1, feet_append, feet_cons, add_left_comm, ← feet_append, Multiset.nodup_add]
    at hnd
  intro q hq hkq
  exact Multiset.disjoint_left.mp hnd.2.2 hk (mem_feet.mpr ⟨q, hq, hkq⟩)

theorem nodup_foot (h : Owns m ps) (hi : ps[i]? = some p) : p.foot.Nodup := by
  have hnd := h.nodup
  rw [(split_at hi).1, feet_append, feet_cons, add_left_comm, Multiset.nodup_add] at hnd
  exact hnd.1

/-- Two pieces have no address in common. -/
theorem not_mem_foot (h : Owns m ps) (hi : ps[i]? = some p) (hj : ps[j]? = some q) (hij : i ≠ j)
    {k : κ} (hk : k ∈ p.foot) : k ∉ q.foot := by
  apply h.disjoint_rest hi hk
  rw [List.mem_append]
  rcases Nat.lt_or_gt_of_ne hij with hlt | hlt
  · right
    refine List.mem_of_getElem? (i := j - (i + 1)) ?_
    rw [List.getElem?_drop, Nat.add_sub_cancel' hlt]
    exact hj
  · left
    refine List.mem_of_getElem? (i := j) ?_
    rw [List.getElem?_take_of_lt hlt]
    exact hj

/-- A change inside one piece. -/
theorem replace (h : Owns m ps) (hi : ps[i]? = some p) (hfoot : q.foot = p.foot) (hq : q.holds m')
    (hframe : ∀ k, k ∉ p.foot → m' k = m k) : Owns m' (ps.set i q) := by
  obtain ⟨hps, hset⟩ := split_at hi
  constructor
  · intro r hr
    rw [hset, List.mem_append, List.mem_cons, or_left_comm] at hr
    rcases hr with rfl | hr
    · exact hq
    · have hr' : r ∈ ps.take i ++ ps.drop (i + 1) := List.mem_append.mpr hr
      have hmem : r ∈ ps := by
        rw [hps]
        exact List.mem_append.mpr (hr.imp_right (List.mem_cons_of_mem p))
      refine r.congr ?_ (h.holds r hmem)
      intro k hk
      exact hframe k fun hkp => h.disjoint_rest hi hkp r hr' hk
  · have hnd := h.nodup
    rw [hps, feet_append, feet_cons] at hnd
    rw [hset, feet_append, feet_cons, hfoot]
    exact hnd

end Owns

end HevTunnel
