import Mathlib.Data.List.Sort
import Mathlib.Data.List.TakeWhile
import Mathlib.Tactic.Ring

/-! # Queues ordered by a key

A queue is a list that is sorted by a key.  A new element goes behind all elements whose key is not
greater (`enqueue`), and the first element is served.

If whatever enters the queue has a greater key than the first element, then an element that waits is
served after a bounded number of services.  `patience n key t ns` counts them for queues of at most `n`
elements: an arrival does not change it (`patience_enqueue`), and a service lowers it
(`patience_tail`, `patience_requeue`). -/

namespace HevTunnel

namespace FairQueue

section order
variable {α κ : Type*} [LinearOrder κ] {key key' : α → κ} {x c : α} {ns a b : List α}

/-- The keys do not get smaller from an element to the next. -/
abbrev Sorted (key : α → κ) (ns : List α) : Prop := ns.Pairwise fun y z => key y ≤ key z

/-- Insertion behind all elements whose key is not greater. -/
def enqueue (key : α → κ) (x : α) (ns : List α) : List α :=
  ns.orderedInsert (fun y z => key y < key z) x

@[simp] theorem mem_enqueue {y : α} : y ∈ enqueue key x ns ↔ y = x ∨ y ∈ ns :=
  List.mem_orderedInsert _

@[simp] theorem length_enqueue : (enqueue key x ns).length = ns.length + 1 :=
  List.orderedInsert_length ..

theorem head?_enqueue (key : α → κ) (x : α) (ns : List α) :
    (enqueue key x ns).head? = some x ∨ (enqueue key x ns).head? = ns.head? := by
  cases ns with
  | nil => exact .inl rfl
  | cons c ns =>
      rw [enqueue, List.orderedInsert_cons]
      split_ifs
      · exact .inl rfl
      · exact .inr rfl

theorem nodup_enqueue (hx : x ∉ ns) (hns : ns.Nodup) : (enqueue key x ns).Nodup :=
  (List.perm_orderedInsert _ x ns).nodup_iff.mpr (List.nodup_cons.mpr ⟨hx, hns⟩)

theorem enqueue_cons_of_le (h : key c ≤ key x) (ns : List α) :
    enqueue key x (c :: ns) = c :: enqueue key x ns :=
  List.orderedInsert_of_not_le _ ns (not_lt.mpr h)

/-- Only the comparisons of the new element with the others matter. -/
theorem orderedInsert_congr {r r' : α → α → Prop} [DecidableRel r] [DecidableRel r']
    (h : ∀ y ∈ ns, r x y ↔ r' x y) : ns.orderedInsert r x = ns.orderedInsert r' x := by
  induction ns with
  | nil => rfl
  | cons c ns ih =>
      rw [List.orderedInsert_cons, List.orderedInsert_cons,
        ih fun y hy => h y (List.mem_cons_of_mem _ hy)]
      simp only [h c List.mem_cons_self]

theorem orderedInsert_eq_enqueue {r : α → α → Prop} [DecidableRel r]
    (h : ∀ y ∈ ns, r x y ↔ key x < key y) : ns.orderedInsert r x = enqueue key x ns :=
  orderedInsert_congr h

theorem Sorted.congr (hns : Sorted key ns) (h : ∀ y ∈ ns, key' y = key y) : Sorted key' ns := by
  refine List.Pairwise.imp_of_mem ?_ hns
  intro y z hy hz hyz
  rw [h y hy, h z hz]
  exact hyz

/-- Where a new element goes in a sorted queue. -/
theorem enqueue_split (hns : Sorted key ns) (x : α) :
    ∃ a b, ns = a ++ b ∧ enqueue key x ns = a ++ x :: b ∧ (∀ y ∈ a, key y ≤ key x) ∧
      ∀ y ∈ b, key x < key y := by
  induction ns with
  | nil => exact ⟨[], [], rfl, rfl, by simp, by simp⟩
  | cons c ns ih =>
      obtain ⟨hc, hns⟩ := List.pairwise_cons.mp hns
      by_cases hlt : key x < key c
      · refine ⟨[], c :: ns, rfl, List.orderedInsert_cons_of_le _ ns hlt, by simp, ?_⟩
        rintro y (_ | ⟨_, hy⟩)
        · exact hlt
        · exact hlt.trans_le (hc y hy)
      · obtain ⟨a, b, rfl, hins, ha, hb⟩ := ih hns
        refine ⟨c :: a, b, rfl, ?_, ?_, hb⟩
        · rw [enqueue_cons_of_le (not_lt.mp hlt), hins, List.cons_append]
        · rintro y (_ | ⟨_, hy⟩)
          · exact not_lt.mp hlt
          · exact ha y hy

theorem Sorted.enqueue (hns : Sorted key ns) (x : α) : Sorted key (enqueue key x ns) := by
  obtain ⟨a, b, rfl, hins, ha, hb⟩ := enqueue_split hns x
  obtain ⟨hsa, hsb, hab⟩ := List.pairwise_append.mp hns
  rw [hins]
  refine List.pairwise_append.mpr ⟨hsa, List.pairwise_cons.mpr ⟨fun y hy => (hb y hy).le, hsb⟩, ?_⟩
  rintro y hy z (_ | ⟨_, hz⟩)
  · exact ha y hy
  · exact hab y hy z hz

end order

/-! ### Waiting -/

section waiting
variable {α : Type*} {key key' : α → ℕ} {x t c : α} {ns a b : List α}
variable [DecidableEq α] {p q : α → Prop} [DecidablePred p] [DecidablePred q] {n : ℕ}

/-- An element that leaves is the first one or does not change it. -/
theorem head?_erase (hx : ns.head? ≠ some x) : (ns.erase x).head? = ns.head? := by
  cases ns with
  | nil => rfl
  | cons c ns =>
      rw [List.erase_cons_tail (by simpa using hx), List.head?_cons, List.head?_cons]

/-- An element that leaves does not move another one back. -/
theorem idxOf_erase_le (hx : x ≠ t) (ns : List α) : (ns.erase x).idxOf t ≤ ns.idxOf t := by
  induction ns with
  | nil => exact le_rfl
  | cons c ns ih =>
      by_cases hcx : c = x
      · rw [hcx, List.erase_cons_head, List.idxOf_cons_ne _ hx]
        exact Nat.le_succ _
      · rw [List.erase_cons_tail (by simpa using hcx)]
        by_cases hct : c = t
        · rw [hct, List.idxOf_cons_self]
          exact Nat.zero_le _
        · rw [List.idxOf_cons_ne _ hct, List.idxOf_cons_ne _ hct]
          exact Nat.succ_le_succ ih

/-- How many elements in front of `t` have the property. -/
def ahead (p : α → Prop) [DecidablePred p] (t : α) (ns : List α) : ℕ :=
  (ns.takeWhile (· ≠ t)).countP p

theorem ahead_cons_of_ne (h : c ≠ t) (ns : List α) :
    ahead p t (c :: ns) = (if p c then 1 else 0) + ahead p t ns := by
  rw [ahead, List.takeWhile_cons_of_pos (by simpa using h), List.countP_cons, ahead, add_comm]
  simp

theorem ahead_cons_self (ns : List α) : ahead p t (t :: ns) = 0 := by
  rw [ahead, List.takeWhile_cons_of_neg (by simp), List.countP_nil]

theorem ahead_congr (h : ∀ y ∈ ns, p y ↔ q y) : ahead p t ns = ahead q t ns := by
  refine List.countP_congr ?_
  intro y hy
  simpa using h y (List.takeWhile_subset _ hy)

/-- An element without the property does not count. -/
theorem ahead_insert (hx : x ≠ t) (hp : ¬ p x) (a b : List α) :
    ahead p t (a ++ x :: b) = ahead p t (a ++ b) := by
  induction a with
  | nil => rw [List.nil_append, List.nil_append, ahead_cons_of_ne hx, if_neg hp, zero_add]
  | cons c a ih =>
      by_cases hc : c = t
      · rw [hc, List.cons_append, List.cons_append, ahead_cons_self, ahead_cons_self]
      · rw [List.cons_append, List.cons_append, ahead_cons_of_ne hc, ahead_cons_of_ne hc, ih]

theorem ahead_lt_length (ht : t ∈ ns) : ahead p t ns < ns.length := by
  induction ns with
  | nil => simp at ht
  | cons c ns ih =>
      by_cases hc : c = t
      · rw [hc, ahead_cons_self]
        exact Nat.succ_pos _
      · have hlt := ih ((List.mem_cons.mp ht).resolve_left (Ne.symm hc))
        rw [ahead_cons_of_ne hc, List.length_cons]
        split_ifs <;> omega

/-- How many services `t` waits for at most, in queues of at most `n` elements: `n` for each key below
its own, and those in front of it that have the smallest key. -/
def patience (n : ℕ) (key : α → ℕ) (t : α) : List α → ℕ
  | [] => 0
  | c :: ns => n * (key t - key c) + ahead (fun y => key y = key c) t (c :: ns)

theorem patience_congr (h : ∀ y ∈ ns, key' y = key y) (ht : t ∈ ns) :
    patience n key' t ns = patience n key t ns := by
  cases ns with
  | nil => rfl
  | cons c ns =>
      rw [patience, patience, h c List.mem_cons_self, h t ht]
      refine congrArg (_ + ·) (ahead_congr ?_)
      intro y hy
      rw [h y hy]

/-- The keys of a queue are close together, so the wait is short. -/
theorem patience_lt {k : ℕ} (ht : t ∈ c :: ns) (hn : (c :: ns).length ≤ n)
    (hk : key t ≤ key c + k) : patience n key t (c :: ns) < (k + 1) * n := by
  have hahead : ahead (fun y => key y = key c) t (c :: ns) < n := (ahead_lt_length ht).trans_le hn
  have hmul : n * (key t - key c) ≤ n * k := Nat.mul_le_mul_left n (by omega)
  calc patience n key t (c :: ns)
      = n * (key t - key c) + ahead (fun y => key y = key c) t (c :: ns) := rfl
    _ < n * k + n := by omega
    _ = (k + 1) * n := by ring

/-- An arrival with a greater key than the first one. -/
theorem patience_enqueue (hns : Sorted key (c :: ns)) (hx : x ≠ t) (hlt : key c < key x) :
    patience n key t (enqueue key x (c :: ns)) = patience n key t (c :: ns) := by
  obtain ⟨a, b, hsplit, hins, -, -⟩ := enqueue_split (List.Pairwise.of_cons hns) x
  rw [enqueue_cons_of_le hlt.le, hins, patience, patience, hsplit, ← List.cons_append,
    ahead_insert hx (by omega), List.cons_append]

/-- A queue after the first element has been served: the smallest key is greater, or fewer elements
with the smallest key are in front. -/
theorem patience_served {l : List α} (hct : c ≠ t) (hl : Sorted key' l) (ht : t ∈ l)
    (hn : l.length ≤ n) (hkey : key' t = key t) (hge : ∀ y ∈ l, key c ≤ key' y)
    (hahead : ahead (fun y => key' y = key c) t l ≤ ahead (fun y => key y = key c) t ns) :
    patience n key' t l < patience n key t (c :: ns) := by
  cases l with
  | nil => simp at ht
  | cons d l =>
      have hd : key c ≤ key' d := hge d List.mem_cons_self
      have hdt : key' d ≤ key t := by
        rw [← hkey]
        rcases List.mem_cons.mp ht with rfl | ht
        · exact le_rfl
        · exact (List.pairwise_cons.mp hl).1 t ht
      rw [patience, patience, ahead_cons_of_ne hct, if_pos rfl, hkey]
      rcases hd.eq_or_lt with heq | hlt
      · have hsame : ahead (fun y => key' y = key' d) t (d :: l) =
            ahead (fun y => key' y = key c) t (d :: l) := by rw [heq]
        rw [hsame, ← heq]
        omega
      · have hshort := (ahead_lt_length (p := fun y => key' y = key' d) ht).trans_le hn
        have hmul : n * (key t - key' d) + n ≤ n * (key t - key c) := by
          calc n * (key t - key' d) + n = n * (key t - key' d + 1) := by ring
            _ ≤ n * (key t - key c) := Nat.mul_le_mul_left n (by omega)
        omega

/-- The first element leaves. -/
theorem patience_tail (hns : Sorted key (c :: ns)) (hct : c ≠ t) (ht : t ∈ ns)
    (hn : ns.length ≤ n) : patience n key t ns < patience n key t (c :: ns) :=
  patience_served hct (List.Pairwise.of_cons hns) ht hn rfl (List.pairwise_cons.mp hns).1 le_rfl

/-- The first element goes back into the queue with a greater key. -/
theorem patience_requeue (hns : Sorted key (c :: ns)) (hc : c ∉ ns) (hct : c ≠ t) (ht : t ∈ ns)
    (hn : (c :: ns).length ≤ n) (hkey : ∀ y ≠ c, key' y = key y) (hlt : key c < key' c) :
    patience n key' t (enqueue key' c ns) < patience n key t (c :: ns) := by
  have hagree : ∀ y ∈ ns, key' y = key y := fun y hy => hkey y (ne_of_mem_of_not_mem hy hc)
  have hsorted : Sorted key' ns := Sorted.congr (List.Pairwise.of_cons hns) hagree
  refine patience_served hct (hsorted.enqueue c) (mem_enqueue.mpr (.inr ht)) (by simpa using hn)
    (hkey t hct.symm) ?_ ?_
  · intro y hy
    rcases mem_enqueue.mp hy with rfl | hy
    · exact hlt.le
    · rw [hagree y hy]
      exact (List.pairwise_cons.mp hns).1 y hy
  · obtain ⟨a, b, hsplit, hins, -, -⟩ := enqueue_split hsorted c
    rw [hins, ahead_insert hct (by omega), ← hsplit]
    refine le_of_eq (ahead_congr ?_)
    intro y hy
    rw [hagree y hy]

end waiting

end FairQueue

end HevTunnel
