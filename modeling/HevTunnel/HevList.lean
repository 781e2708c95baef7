import Mathlib.Data.List.Basic
import Mathlib.Data.List.Nodup
import Mathlib.Logic.Function.Basic

/-! # Doubly linked lists

A list is a head, a tail, and two links in each node (`hev-list.c`).  The nodes are of any type with
decidable equality: a node stands for its own address, and `node` for the memory in which the links
lie.

`Links l xs` says that the list holds the nodes `xs`, each of them once.  `Links.addTail` and
`Links.del` are the two operations: append a node, and remove one.  A `ListCall` is one of them with
its precondition: the node is not in the list, or it is. -/

namespace HevTunnel

variable {α : Type*}

/-- `HevListNode`. -/
structure ListNode (α : Type*) where
  next : Option α
  prev : Option α

/-- `HevList` with the memory of the nodes. -/
structure LinkedList (α : Type*) where
  head : Option α
  tail : Option α
  node : α → ListNode α

namespace LinkedList

/-- The list without nodes. -/
def empty (node : α → ListNode α) : LinkedList α := ⟨none, none, node⟩

section operations
variable [DecidableEq α]

/-- `node->next = next`. -/
def setNext (l : LinkedList α) (x : α) (next : Option α) : LinkedList α :=
  { l with node := Function.update l.node x { l.node x with next := next } }

/-- `node->prev = prev`. -/
def setPrev (l : LinkedList α) (x : α) (prev : Option α) : LinkedList α :=
  { l with node := Function.update l.node x { l.node x with prev := prev } }

/-- `hev_list_add_tail`. -/
def addTail (l : LinkedList α) (new : α) : LinkedList α :=
  let l := (l.setPrev new l.tail).setNext new none
  let l := match l.tail with
    | some t => l.setNext t (some new)
    | none => { l with head := some new }
  { l with tail := some new }

/-- `hev_list_del`. -/
def del (l : LinkedList α) (x : α) : LinkedList α :=
  let l := match (l.node x).prev with
    | some p => l.setNext p (l.node x).next
    | none => { l with head := (l.node x).next }
  match (l.node x).next with
  | some n => l.setPrev n (l.node x).prev
  | none => { l with tail := (l.node x).prev }

end operations

/-- The list holds the nodes `xs`, and their links are those of the sequence. -/
structure Links (l : LinkedList α) (xs : List α) : Prop where
  nodup : xs.Nodup
  head : l.head = xs.head?
  tail : l.tail = xs.getLast?
  node : ∀ pre x post, xs = pre ++ x :: post → l.node x = ⟨post.head?, pre.getLast?⟩

theorem Links.empty (node : α → ListNode α) : (empty node).Links [] :=
  ⟨List.nodup_nil, rfl, rfl, by simp⟩

section node
variable [DecidableEq α] (l : LinkedList α)

theorem node_setNext (x y : α) (next : Option α) :
    (l.setNext x next).node y = if y = x then ⟨next, (l.node y).prev⟩ else l.node y := by
  unfold setNext
  by_cases h : y = x
  · subst h
    simp
  · simp [h]

theorem node_setPrev (x y : α) (prev : Option α) :
    (l.setPrev x prev).node y = if y = x then ⟨(l.node y).next, prev⟩ else l.node y := by
  unfold setPrev
  by_cases h : y = x
  · subst h
    simp
  · simp [h]

/-- What appending a node does to the links. -/
theorem node_addTail {new : α} (hnew : l.tail ≠ some new) (y : α) :
    (l.addTail new).node y =
      if y = new then ⟨none, l.tail⟩
      else if l.tail = some y then ⟨some new, (l.node y).prev⟩ else l.node y := by
  unfold addTail
  have htail : ((l.setPrev new l.tail).setNext new none).tail = l.tail := rfl
  simp only [htail]
  cases ht : l.tail with
  | none =>
      simp only [node_setNext, node_setPrev]
      split_ifs <;> simp_all
  | some t =>
      simp only [node_setNext, node_setPrev]
      split_ifs <;> simp_all

@[simp] theorem head_addTail (new : α) :
    (l.addTail new).head = if l.tail = none then some new else l.head := by
  unfold addTail
  have htail : ((l.setPrev new l.tail).setNext new none).tail = l.tail := rfl
  simp only [htail]
  cases l.tail <;> rfl

@[simp] theorem tail_addTail (new : α) : (l.addTail new).tail = some new := rfl

/-- What removing a node does to the links. -/
theorem node_del {x : α} (hx : (l.node x).prev ≠ some x) (y : α) :
    (l.del x).node y =
      ⟨if (l.node x).prev = some y then (l.node x).next else (l.node y).next,
        if (l.node x).next = some y then (l.node x).prev else (l.node y).prev⟩ := by
  unfold del
  cases hp : (l.node x).prev with
  | none =>
      simp only [hp]
      cases hn : (l.node x).next with
      | none => simp
      | some n =>
          simp only [node_setPrev]
          split_ifs <;> simp_all
  | some p =>
      have hne : x ≠ p := by
        rintro rfl
        exact hx hp
      simp only [node_setNext, if_neg hne, hp]
      cases hn : (l.node x).next with
      | none =>
          simp only [node_setNext]
          split_ifs <;> simp_all
      | some n =>
          simp only [node_setPrev, node_setNext]
          split_ifs <;> simp_all

theorem head_del (x : α) :
    (l.del x).head = if (l.node x).prev = none then (l.node x).next else l.head := by
  unfold del
  cases hp : (l.node x).prev with
  | none => simp only [hp]; cases (l.node x).next <;> rfl
  | some p =>
      simp only
      cases ((l.setNext p (l.node x).next).node x).next <;> rfl

theorem tail_del {x : α} (hx : (l.node x).prev ≠ some x) :
    (l.del x).tail = if (l.node x).next = none then (l.node x).prev else l.tail := by
  unfold del
  cases hp : (l.node x).prev with
  | none =>
      simp only [hp]
      cases (l.node x).next <;> rfl
  | some p =>
      have hne : x ≠ p := by
        rintro rfl
        exact hx hp
      simp only [node_setNext, if_neg hne, hp]
      cases (l.node x).next <;> rfl

end node

/-! ### The operations on the sequence -/

/-- In a sequence without repetition a node with others behind it is not the last one. -/
theorem getLast?_ne_some {pre post : List α} {y : α} (h : (pre ++ y :: post).Nodup)
    (hpost : post ≠ []) : (pre ++ y :: post).getLast? ≠ some y := by
  intro hlast
  have hsplit : pre ++ y :: post = (pre ++ [y]) ++ post := by simp
  rw [hsplit, List.getLast?_append_of_ne_nil _ hpost] at hlast
  rw [List.nodup_middle, List.nodup_cons] at h
  exact h.1 (List.mem_append_right _ (List.mem_of_getLast? hlast))

section links
variable [DecidableEq α] {l : LinkedList α} {xs : List α}

/-- The list with a node that it did not hold appended. -/
theorem Links.addTail (h : l.Links xs) {new : α} (hnew : new ∉ xs) :
    (l.addTail new).Links (xs ++ [new]) := by
  have htail : l.tail ≠ some new := by
    intro ht
    rw [h.tail] at ht
    exact hnew (List.mem_of_getLast? ht)
  refine ⟨?_, ?_, by simp, ?_⟩
  · rw [List.nodup_append]
    exact ⟨h.nodup, by simp, by simpa using fun a ha => ne_of_mem_of_not_mem ha hnew⟩
  · rw [head_addTail, h.tail, h.head]
    cases xs <;> simp
  · intro pre y post hsplit
    rw [l.node_addTail htail]
    rcases List.eq_nil_or_concat post with rfl | ⟨post, z, rfl⟩
    · -- the new node
      obtain ⟨rfl, hy⟩ := List.append_inj' hsplit rfl
      rw [if_pos (List.singleton_inj.mp hy).symm, h.tail]
      rfl
    · obtain ⟨rfl, hz⟩ : xs = pre ++ y :: post ∧ [new] = [z] :=
        List.append_inj' (by rw [hsplit]; simp) rfl
      have hy : y ≠ new := by
        rintro rfl
        exact hnew (by simp)
      rw [if_neg hy, h.node pre y post rfl, h.tail]
      cases post with
      | nil => simp [List.singleton_inj.mp hz]
      | cons w post =>
          -- the last node is behind `y`
          rw [if_neg (getLast?_ne_some h.nodup (by simp))]
          rfl

/-- The links of a node before the one that is removed. -/
theorem Links.node_del_before {pre a b : List α} {x y : α} (h : l.Links (pre ++ y :: a ++ x :: b)) :
    (l.del x).node y = ⟨(a ++ b).head?, pre.getLast?⟩ := by
  have hnd : x ∉ pre ++ y :: a ++ b ∧ (pre ++ y :: a ++ b).Nodup :=
    List.nodup_cons.mp (List.nodup_middle.mp h.nodup)
  have hx := h.node (pre ++ y :: a) x b rfl
  have hy := h.node pre y (a ++ x :: b) (by simp)
  have hprev : (l.node x).prev ≠ some x := by
    rw [hx]
    exact fun hlast => hnd.1 (List.mem_append_left _ (List.mem_of_getLast? hlast))
  have hne : b.head? ≠ some y := by
    intro hb
    exact (List.nodup_append.mp hnd.2).2.2 y (by simp) y (List.mem_of_head? hb) rfl
  rw [l.node_del hprev, hx, hy, if_neg hne]
  cases a with
  | nil => simp
  | cons z a =>
      rw [if_neg (getLast?_ne_some (List.nodup_append.mp hnd.2).1 (by simp))]
      rfl

/-- The links of a node behind the one that is removed. -/
theorem Links.node_del_behind {a b post : List α} {x y : α}
    (h : l.Links (a ++ x :: (b ++ y :: post))) :
    (l.del x).node y = ⟨post.head?, (a ++ b).getLast?⟩ := by
  have hnd : x ∉ a ++ (b ++ y :: post) ∧ (a ++ (b ++ y :: post)).Nodup :=
    List.nodup_cons.mp (List.nodup_middle.mp h.nodup)
  have hx := h.node a x (b ++ y :: post) rfl
  have hy := h.node (a ++ x :: b) y post (by simp)
  have hprev : (l.node x).prev ≠ some x := by
    rw [hx]
    exact fun hlast => hnd.1 (List.mem_append_left _ (List.mem_of_getLast? hlast))
  have hne : a.getLast? ≠ some y := by
    intro ha
    exact (List.nodup_append.mp hnd.2).2.2 y (List.mem_of_getLast? ha) y (by simp) rfl
  rw [l.node_del hprev, hx, hy, if_neg hne]
  cases b with
  | nil => simp
  | cons z b =>
      have hzy : z ≠ y := by
        rintro rfl
        have := (List.nodup_append.mp hnd.2).2.1
        simp at this
      simp [hzy]

/-- The list with one of its nodes removed. -/
theorem Links.del {a b : List α} {x : α} (h : l.Links (a ++ x :: b)) : (l.del x).Links (a ++ b) := by
  have hnode := h.node a x b rfl
  have hnd : x ∉ a ++ b ∧ (a ++ b).Nodup := List.nodup_cons.mp (List.nodup_middle.mp h.nodup)
  have hprev : (l.node x).prev ≠ some x := by
    rw [hnode]
    exact fun hlast => hnd.1 (List.mem_append_left _ (List.mem_of_getLast? hlast))
  refine ⟨hnd.2, ?_, ?_, ?_⟩
  · rw [head_del, hnode, h.head]
    cases a with
    | nil => simp
    | cons y a => simp
  · rw [tail_del _ hprev, hnode, h.tail]
    cases b with
    | nil => simp
    | cons y b => simp
  · intro pre y post hsplit
    rcases List.append_eq_append_iff.mp hsplit with ⟨b', rfl, rfl⟩ | ⟨a', rfl, hpost⟩
    · exact h.node_del_behind
    · cases a' with
      | nil =>
          rw [List.append_nil] at h
          rw [List.nil_append] at hpost
          rw [← hpost] at h
          simpa using Links.node_del_behind (b := []) h
      | cons z a' =>
          obtain ⟨rfl, rfl⟩ := List.cons.inj hpost
          exact h.node_del_before

/-- The first node removed, as a queue is served. -/
theorem Links.del_head {x : α} (h : l.Links (x :: xs)) : (l.del x).Links xs :=
  Links.del (a := []) h

/-- The memory of a node that is not in the list is not the list's. -/
theorem Links.write_other (h : l.Links xs) {x : α} (hx : x ∉ xs) (n : ListNode α) :
    Links { l with node := Function.update l.node x n } xs := by
  refine ⟨h.nodup, h.head, h.tail, ?_⟩
  intro pre y post hsplit
  have hy : y ≠ x := by
    rintro rfl
    exact hx (by rw [hsplit]; simp)
  show Function.update l.node x n y = _
  rw [Function.update_of_ne hy]
  exact h.node pre y post hsplit

end links

end LinkedList

/-! ### Calls and their preconditions -/

/-- A call of `hev_list_add_tail` or `hev_list_del`. -/
inductive ListCall (α : Type*) where
  | addTail (x : α)
  | del (x : α)

namespace ListCall
variable [DecidableEq α]

/-- What the call does to the links. -/
def exec (l : LinkedList α) : ListCall α → LinkedList α
  | addTail x => l.addTail x
  | del x => l.del x

/-- What the call is to do: append a node that is not in the sequence, or remove one that is. -/
def apply (xs : List α) : ListCall α → Option (List α)
  | addTail x => if x ∈ xs then none else some (xs ++ [x])
  | del x => if x ∈ xs then some (xs.erase x) else none

end ListCall

namespace LinkedList
variable [DecidableEq α] {l : LinkedList α} {xs ys : List α}

theorem Links.erase (h : l.Links xs) {x : α} (hx : x ∈ xs) : (l.del x).Links (xs.erase x) := by
  obtain ⟨a, b, hnot, rfl, herase⟩ := List.exists_erase_eq hx
  rw [herase]
  exact h.del

/-- A call with its precondition refines the operation on the sequence. -/
theorem Links.call (h : l.Links xs) {c : ListCall α} (hc : c.apply xs = some ys) :
    (c.exec l).Links ys := by
  cases c with
  | addTail x =>
      simp only [ListCall.apply] at hc
      split_ifs at hc with hx
      cases hc
      exact h.addTail hx
  | del x =>
      simp only [ListCall.apply] at hc
      split_ifs at hc with hx
      cases hc
      exact h.erase hx

end LinkedList
end HevTunnel
