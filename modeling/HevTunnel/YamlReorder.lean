import HevTunnel.Config
import Mathlib.Data.List.Perm.Basic
import Mathlib.Data.List.Nodup

/-! # Documents in another order

`YamlDoc.Reordered` relates two documents that differ in the order of the pairs of the root mapping
and of its sections.  The nodes keep their indices, so a section that is used at two places through an
alias has one order.

The loops over a mapping of scalars end at the first pair with another node.  What they see of a
mapping in another order is the same up to the order if all values are scalars
(`scalarPairs_perm`), and otherwise depends on where the first such pair stands. -/

namespace HevTunnel

/-- The same node, with the pairs of a mapping in another order. -/
inductive YamlNode.Reordered : YamlNode → YamlNode → Prop
  | scalar (value : CStr) : Reordered (.scalar value) (.scalar value)
  | sequence : Reordered .sequence .sequence
  | mapping {ps qs : List (ℕ × ℕ)} (hperm : ps.Perm qs) : Reordered (.mapping ps) (.mapping qs)

theorem YamlNode.Reordered.refl (node : YamlNode) : node.Reordered node := by
  cases node with
  | scalar value => exact .scalar value
  | sequence => exact .sequence
  | mapping ps => exact .mapping (List.Perm.refl ps)

namespace YamlDoc

theorem getRootNode_eq (doc : YamlDoc) : doc.getRootNode = doc.getNode 1 := by
  unfold getRootNode getNode
  rw [if_neg (by decide), List.head?_eq_getElem?]

/-- The root mapping and its sections, which are the values of its pairs. -/
def IsSection (doc : YamlDoc) (i : ℕ) : Prop :=
  i = 1 ∨ ∃ root k, doc.getRootNode = some (.mapping root) ∧ (k, i) ∈ root

/-- The same document, with the pairs of the root mapping and of the sections in another order. -/
structure Reordered (doc doc' : YamlDoc) : Prop where
  nodes : List.Forall₂ YamlNode.Reordered doc.nodes doc'.nodes
  others : ∀ i, ¬ doc.IsSection i → doc'.getNode i = doc.getNode i

/-- The keys of a mapping are pairwise distinct scalars, and its values are nodes of any kind. -/
structure Keyed (doc : YamlDoc) (ps : List (ℕ × ℕ)) : Prop where
  scalar : ∀ p ∈ ps, (doc.scalarAt p.1).isSome
  distinct : (ps.map (fun p => doc.scalarAt p.1)).Nodup
  value : ∀ p ∈ ps, (doc.getNode p.2).isSome

/-- The keys of the root mapping are distinct, and so are those of each section.  They are compared as C
strings, as `strcmp` does, so two keys that differ only behind a NUL are one. -/
def DistinctKeys (doc : YamlDoc) : Prop :=
  ∀ i ps, doc.IsSection i → doc.getNode i = some (.mapping ps) → doc.Keyed ps

/-- All values of a mapping are scalars. -/
def Scalars (doc : YamlDoc) (ps : List (ℕ × ℕ)) : Prop := ∀ p ∈ ps, (doc.scalarAt p.2).isSome

/-- A mapping has a key with a scalar value. -/
def Entry (doc : YamlDoc) (ps : List (ℕ × ℕ)) (key value : CStr) : Prop :=
  ∃ p ∈ ps, doc.scalarAt p.1 = some key ∧ doc.scalarAt p.2 = some value

/-! ### Nodes of a reordered document -/

namespace Reordered
variable {doc doc' : YamlDoc} (h : doc.Reordered doc')
include h

theorem getNode (i : ℕ) : Option.Rel YamlNode.Reordered (doc.getNode i) (doc'.getNode i) := by
  unfold YamlDoc.getNode
  split_ifs
  · exact .none
  · obtain hlt | hge := Nat.lt_or_ge (i - 1) doc.nodes.length
    · have hlt' : i - 1 < doc'.nodes.length := h.nodes.length_eq ▸ hlt
      rw [List.getElem?_eq_getElem hlt, List.getElem?_eq_getElem hlt']
      exact .some (List.forall₂_iff_get.mp h.nodes |>.2 (i - 1) hlt hlt')
    · rw [List.getElem?_eq_none hge, List.getElem?_eq_none (h.nodes.length_eq ▸ hge)]
      exact .none

theorem scalarAt (i : ℕ) : doc'.scalarAt i = doc.scalarAt i := by
  have hrel := h.getNode i
  unfold YamlDoc.scalarAt
  generalize doc.getNode i = n at hrel ⊢
  generalize doc'.getNode i = n' at hrel ⊢
  cases hrel with
  | none => rfl
  | some hrel => cases hrel <;> rfl

theorem getNode_isSome (i : ℕ) : (doc'.getNode i).isSome = (doc.getNode i).isSome := by
  have hrel := h.getNode i
  generalize doc.getNode i = n at hrel ⊢
  generalize doc'.getNode i = n' at hrel ⊢
  cases hrel <;> rfl

theorem mapping {i : ℕ} {ps : List (ℕ × ℕ)} (hnode : doc.getNode i = some (.mapping ps)) :
    ∃ qs, doc'.getNode i = some (.mapping qs) ∧ ps.Perm qs := by
  have hrel := h.getNode i
  rw [hnode] at hrel
  generalize doc'.getNode i = n' at hrel
  cases hrel with
  | some hrel =>
      cases hrel with
      | mapping hperm => exact ⟨_, rfl, hperm⟩

theorem not_mapping {i : ℕ} (hnode : ∀ ps, doc.getNode i ≠ some (.mapping ps)) (qs : List (ℕ × ℕ)) :
    doc'.getNode i ≠ some (.mapping qs) := by
  intro hnode'
  have hrel := h.getNode i
  rw [hnode'] at hrel
  generalize hn : doc.getNode i = n at hrel
  cases hrel with
  | some hrel =>
      cases hrel with
      | mapping hperm => exact hnode _ hn

theorem keyed {ps : List (ℕ × ℕ)} (hk : doc.Keyed ps) : doc'.Keyed ps where
  scalar := fun p hp => by rw [h.scalarAt]; exact hk.scalar p hp
  distinct := by simpa only [h.scalarAt] using hk.distinct
  value := fun p hp => by rw [h.getNode_isSome]; exact hk.value p hp

end Reordered

theorem Reordered.refl (doc : YamlDoc) : doc.Reordered doc where
  nodes := List.forall₂_same.mpr (fun node _ => YamlNode.Reordered.refl node)
  others := fun _ _ => rfl

/-- A document with a mapping in another order. -/
def reorder (doc : YamlDoc) (i : ℕ) (qs : List (ℕ × ℕ)) : YamlDoc :=
  ⟨doc.nodes.set (i - 1) (.mapping qs)⟩

section reorder
variable {doc : YamlDoc} {i : ℕ} {ps qs : List (ℕ × ℕ)}

theorem lt_length_of_getNode {node : YamlNode} (h : doc.getNode i = some node) :
    i ≠ 0 ∧ i - 1 < doc.nodes.length := by
  unfold getNode at h
  split_ifs at h with hi
  exact ⟨hi, (List.getElem?_eq_some_iff.mp h).1⟩

theorem getNode_reorder {node : YamlNode} (h : doc.getNode i = some node) (qs : List (ℕ × ℕ)) :
    (doc.reorder i qs).getNode i = some (.mapping qs) := by
  obtain ⟨hi, hlt⟩ := lt_length_of_getNode h
  unfold getNode reorder
  rw [if_neg hi, List.getElem?_set_self hlt]

theorem reordered_reorder (hsec : doc.IsSection i) (h : doc.getNode i = some (.mapping ps))
    (hperm : ps.Perm qs) : doc.Reordered (doc.reorder i qs) where
  nodes := by
    unfold getNode at h
    split_ifs at h with hi
    obtain ⟨hlt, hnode⟩ := List.getElem?_eq_some_iff.mp h
    refine List.forall₂_iff_get.mpr ⟨by simp [reorder], fun j hj hj' => ?_⟩
    simp only [reorder, List.get_eq_getElem, List.getElem_set]
    split_ifs with hij
    · subst hij
      rw [hnode]
      exact .mapping hperm
    · exact YamlNode.Reordered.refl _
  others := by
    intro j hj
    have hne : j ≠ i := fun hji => hj (hji ▸ hsec)
    obtain ⟨hi, -⟩ := lt_length_of_getNode h
    unfold getNode reorder
    split_ifs with hj0
    · rfl
    · exact List.getElem?_set_ne (by omega)

end reorder

/-! ### What the loops see -/

section keyed
variable {doc : YamlDoc} {ps qs : List (ℕ × ℕ)} {key value : CStr}

theorem Keyed.perm (h : doc.Keyed ps) (hperm : ps.Perm qs) : doc.Keyed qs where
  scalar := fun p hp => h.scalar p (hperm.mem_iff.mpr hp)
  distinct := (hperm.map _).nodup_iff.mp h.distinct
  value := fun p hp => h.value p (hperm.mem_iff.mpr hp)

theorem Keyed.eq_of_key (h : doc.Keyed ps) {p q : ℕ × ℕ} (hp : p ∈ ps) (hq : q ∈ ps)
    (hkey : doc.scalarAt p.1 = doc.scalarAt q.1) : p = q :=
  List.inj_on_of_nodup_map h.distinct hp hq hkey

theorem Entry.perm (h : doc.Entry ps key value) (hperm : ps.Perm qs) : doc.Entry qs key value := by
  obtain ⟨p, hp, h⟩ := h
  exact ⟨p, hperm.mem_iff.mp hp, h⟩

theorem entry_perm (hperm : ps.Perm qs) : doc.Entry ps key value ↔ doc.Entry qs key value :=
  ⟨fun h => h.perm hperm, fun h => h.perm hperm.symm⟩

theorem scalarPairs_congr {doc' : YamlDoc} (h : ∀ i, doc'.scalarAt i = doc.scalarAt i)
    (ps : List (ℕ × ℕ)) : doc'.scalarPairs ps = doc.scalarPairs ps := by
  induction ps with
  | nil => rfl
  | cons p ps ih => simp only [scalarPairs, h, ih]

theorem scalarPairs_cons_entry {p : ℕ × ℕ} (hkey : doc.scalarAt p.1 = some key)
    (hvalue : doc.scalarAt p.2 = some value) (ps : List (ℕ × ℕ)) :
    doc.scalarPairs (p :: ps) = (key, value) :: doc.scalarPairs ps := by
  rw [scalarPairs, hkey, hvalue]

theorem scalarPairs_cons_other {p : ℕ × ℕ} (hvalue : doc.scalarAt p.2 = none) (ps : List (ℕ × ℕ)) :
    doc.scalarPairs (p :: ps) = [] := by
  rw [scalarPairs, hvalue]
  split
  · contradiction
  · rfl

/-- What stands behind a value that is not a scalar is not seen. -/
theorem scalarPairs_append_other {p : ℕ × ℕ} (hvalue : doc.scalarAt p.2 = none)
    (ps qs : List (ℕ × ℕ)) : doc.scalarPairs (ps ++ p :: qs) = doc.scalarPairs ps := by
  induction ps with
  | nil => exact scalarPairs_cons_other hvalue qs
  | cons q ps ih => rw [List.cons_append, scalarPairs, scalarPairs, ih]

/-- Any entries of a section with another value can be the only ones that are seen. -/
theorem exists_seen {i : ℕ} (hsec : doc.IsSection i) (h : doc.getNode i = some (.mapping ps))
    (hs : ¬ doc.Scalars ps) {l : List (ℕ × ℕ)} (hl : l.Nodup) (hsub : l ⊆ ps)
    (hscalars : doc.Scalars l) :
    ∃ doc' qs, doc.Reordered doc' ∧ doc'.getNode i = some (.mapping qs) ∧
      doc'.scalarPairs qs = doc.scalarPairs l := by
  unfold Scalars at hs
  push Not at hs
  obtain ⟨q, hq, hvalue⟩ := hs
  have hql : q ∉ l := fun hql => hvalue (hscalars q hql)
  have hvalue : doc.scalarAt q.2 = none := Option.not_isSome_iff_eq_none.mp hvalue
  -- the other value stands right behind these entries
  obtain ⟨l', hl', hsub'⟩ := List.subperm_of_subset (List.nodup_cons.mpr ⟨hql, hl⟩)
    (List.cons_subset.mpr ⟨hq, hsub⟩)
  obtain ⟨rs, hrs⟩ := hsub'.exists_perm_append
  have hperm : ps.Perm (l ++ q :: rs) :=
    hrs.trans ((hl'.append_right rs).trans List.perm_middle.symm)
  have hre := reordered_reorder hsec h hperm
  exact ⟨_, _, hre, getNode_reorder h _,
    (scalarPairs_congr hre.scalarAt _).trans (scalarPairs_append_other hvalue l rs)⟩

theorem exists_unseen {i : ℕ} (hsec : doc.IsSection i) (h : doc.getNode i = some (.mapping ps))
    (hs : ¬ doc.Scalars ps) :
    ∃ doc' qs, doc.Reordered doc' ∧ doc'.getNode i = some (.mapping qs) ∧ doc'.scalarPairs qs = [] :=
  exists_seen hsec h hs List.nodup_nil (List.nil_subset _) (by simp [Scalars])

theorem exists_seen_entry {i : ℕ} (hsec : doc.IsSection i) (h : doc.getNode i = some (.mapping ps))
    (hs : ¬ doc.Scalars ps) (hentry : doc.Entry ps key value) :
    ∃ doc' qs, doc.Reordered doc' ∧ doc'.getNode i = some (.mapping qs) ∧
      doc'.scalarPairs qs = [(key, value)] := by
  obtain ⟨e, he, hkey, hvalue⟩ := hentry
  obtain ⟨doc', qs, hre, hnode, hseen⟩ := exists_seen hsec h hs (List.nodup_singleton e)
    (List.cons_subset.mpr ⟨he, List.nil_subset _⟩) (by simp [Scalars, hvalue])
  exact ⟨doc', qs, hre, hnode, by rw [hseen, scalarPairs_cons_entry hkey hvalue, scalarPairs]⟩

theorem entry_of_mem_scalarPairs (h : (key, value) ∈ doc.scalarPairs ps) :
    doc.Entry ps key value := by
  induction ps with
  | nil => simp [scalarPairs] at h
  | cons p ps ih =>
      rw [scalarPairs] at h
      split at h
      · rename_i k v hk hv
        obtain heq | h := List.mem_cons.mp h
        · cases heq
          exact ⟨p, by simp, hk, hv⟩
        · obtain ⟨q, hq, hentry⟩ := ih h
          exact ⟨q, List.mem_cons_of_mem _ hq, hentry⟩
      · simp at h

/-- In a mapping of scalars every entry is seen. -/
theorem mem_scalarPairs_iff (hk : doc.Keyed ps) (hs : doc.Scalars ps) :
    (key, value) ∈ doc.scalarPairs ps ↔ doc.Entry ps key value := by
  refine ⟨entry_of_mem_scalarPairs, ?_⟩
  rintro ⟨q, hq, hkey, hvalue⟩
  have hscalar := hk.scalar
  clear hk
  induction ps with
  | nil => simp at hq
  | cons p ps ih =>
      obtain ⟨k, hk⟩ := Option.isSome_iff_exists.mp (hscalar p (by simp))
      obtain ⟨v, hv⟩ := Option.isSome_iff_exists.mp (hs p (by simp))
      rw [scalarPairs_cons_entry hk hv]
      obtain rfl | hq := List.mem_cons.mp hq
      · rw [hk, Option.some.injEq] at hkey
        rw [hv, Option.some.injEq] at hvalue
        simp [hkey, hvalue]
      · exact List.mem_cons_of_mem _ (ih (fun r hr => hs r (List.mem_cons_of_mem _ hr)) hq
          (fun r hr => hscalar r (List.mem_cons_of_mem _ hr)))

/-- The keys that are seen are distinct. -/
theorem nodup_scalarPairs (hk : doc.Keyed ps) : ((doc.scalarPairs ps).map Prod.fst).Nodup := by
  induction ps with
  | nil => simp [scalarPairs]
  | cons p ps ih =>
      have hdistinct := hk.distinct
      rw [List.map_cons, List.nodup_cons] at hdistinct
      have hrest : doc.Keyed ps := ⟨fun q hq => hk.scalar q (List.mem_cons_of_mem _ hq),
        hdistinct.2, fun q hq => hk.value q (List.mem_cons_of_mem _ hq)⟩
      rw [scalarPairs]
      split
      · rename_i k v hkey hv
        rw [List.map_cons, List.nodup_cons]
        refine ⟨fun hmem => hdistinct.1 ?_, ih hrest⟩
        obtain ⟨⟨k', v'⟩, hmem, hfst⟩ := List.mem_map.mp hmem
        obtain ⟨q, hq, hqkey, -⟩ := entry_of_mem_scalarPairs hmem
        refine List.mem_map.mpr ⟨q, hq, ?_⟩
        rw [hqkey, hkey]
        exact congrArg some hfst
      · simp

/-- A mapping of scalars in another order is seen in another order. -/
theorem scalarPairs_perm (hk : doc.Keyed ps) (hs : doc.Scalars ps) (hperm : ps.Perm qs) :
    (doc.scalarPairs ps).Perm (doc.scalarPairs qs) := by
  have hs' : doc.Scalars qs := fun p hp => hs p (hperm.mem_iff.mpr hp)
  refine (List.perm_ext_iff_of_nodup (List.Nodup.of_map _ (nodup_scalarPairs hk))
    (List.Nodup.of_map _ (nodup_scalarPairs (hk.perm hperm)))).mpr ?_
  rintro ⟨key, value⟩
  rw [mem_scalarPairs_iff hk hs, mem_scalarPairs_iff (hk.perm hperm) hs', entry_perm hperm]

theorem scalarPairs_eq_of_key (hk : doc.Keyed ps) {e e' : CStr × CStr} (he : e ∈ doc.scalarPairs ps)
    (he' : e' ∈ doc.scalarPairs ps) (hkey : e.1 = e'.1) : e = e' :=
  List.inj_on_of_nodup_map (nodup_scalarPairs hk) he he' hkey

end keyed

end YamlDoc

end HevTunnel
