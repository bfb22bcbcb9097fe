import Std.Data.ExtTreeMap
import Mathlib.Algebra.BigOperators.Group.Multiset.Basic
import Mathlib.Algebra.GroupWithZero.Nat
import Mathlib.Data.Multiset.Bind
import Mathlib.Data.Multiset.UnionInter

/-!
# Ordered maps as multisets of entries

`Std.ExtTreeMap` has the look-up laws of an ordered map. This module adds what sums and
duplicate-freeness arguments need: the entries as a multiset, and how an insertion changes them.
-/

namespace OrderedMap

open Std

variable {K V : Type} [Ord K] [TransOrd K]

/-- The entries of a map, without their order. -/
def entries (m : ExtTreeMap K V) : Multiset (K × V) := m.toList

/-- The keys of a map, without their order. -/
def keySet (m : ExtTreeMap K V) : Multiset K := (entries m).map Prod.fst

/-- The sum of the values of a map of numbers. -/
def valueSum (m : ExtTreeMap K Nat) : Nat := ((entries m).map Prod.snd).sum

@[simp] theorem entries_empty : entries (∅ : ExtTreeMap K V) = 0 := by
  simp [entries]

@[simp] theorem keySet_empty : keySet (∅ : ExtTreeMap K V) = 0 := by
  simp [keySet]

@[simp] theorem valueSum_empty : valueSum (∅ : ExtTreeMap K Nat) = 0 := by
  simp [valueSum]

/-- All elements of the lists of a map, without their order. -/
def bag (m : ExtTreeMap K (List V)) : Multiset V := m.toList.flatMap (·.2)

theorem bag_eq_bind (m : ExtTreeMap K (List V)) :
    bag m = Multiset.bind (entries m) fun e => (e.2 : List V) := by
  simp [bag, entries, Multiset.coe_bind]

@[simp] theorem bag_empty : bag (∅ : ExtTreeMap K (List V)) = 0 := by
  simp [bag]

/-- A map of lists falls into the part that a filter leaves and the part that it takes out. -/
theorem bag_filter_add (m : ExtTreeMap K (List V)) (f : K → List V → Bool) :
    bag (m.filter f) + (((m.toList.filter fun e => !f e.1 e.2).flatMap (·.2) : List V) :
      Multiset V) = bag m := by
  have hsplit := Multiset.filter_add_not (fun e : K × List V => f e.1 e.2) (m.toList : Multiset _)
  have hbind := congrArg (fun s => Multiset.bind s fun e : K × List V => (e.2 : Multiset V)) hsplit
  simpa [bag, ExtTreeMap.toList_filter, Multiset.add_bind, Multiset.coe_bind] using hbind

variable [LawfulEqOrd K]

theorem getElem?_insert [DecidableEq K] (m : ExtTreeMap K V) (k a : K) (v : V) :
    (m.insert k v)[a]? = if k = a then some v else m[a]? := by
  simp only [ExtTreeMap.getElem?_insert, LawfulEqCmp.compare_eq_iff_eq]

theorem getD_insert [DecidableEq K] (m : ExtTreeMap K V) (k a : K) (v d : V) :
    (m.insert k v).getD a d = if k = a then v else m.getD a d := by
  simp only [ExtTreeMap.getD_insert, LawfulEqCmp.compare_eq_iff_eq]

@[simp] theorem mem_entries {m : ExtTreeMap K V} {k : K} {v : V} :
    (k, v) ∈ entries m ↔ m[k]? = some v := by
  simp [entries]

@[simp] theorem mem_keySet {m : ExtTreeMap K V} {k : K} : k ∈ keySet m ↔ ∃ v, m[k]? = some v := by
  simp [keySet]

theorem mem_bag {m : ExtTreeMap K (List V)} {a : V} :
    a ∈ bag m ↔ ∃ (k : K) (l : List V), m[k]? = some l ∧ a ∈ l := by
  simp [bag_eq_bind]

theorem entries_nodup (m : ExtTreeMap K V) : (entries m).Nodup := by
  refine Multiset.coe_nodup.mpr (ExtTreeMap.distinct_keys_toList.imp ?_)
  rintro a b hne rfl
  exact hne ReflCmp.compare_self

variable [DecidableEq K]

theorem insertIfNew_of_none {m : ExtTreeMap K V} {k : K} (h : m[k]? = none) (v : V) :
    m.insertIfNew k v = m.insert k v := by
  have hk : k ∉ m := by simpa using h
  refine ExtTreeMap.ext_getElem? fun a => ?_
  simp only [ExtTreeMap.getElem?_insertIfNew, getElem?_insert, LawfulEqCmp.compare_eq_iff_eq, hk,
    not_false_eq_true, and_true]

theorem entries_insert_of_none {m : ExtTreeMap K V} {k : K} (h : m[k]? = none) (v : V) :
    entries (m.insert k v) = (k, v) ::ₘ entries m := by
  have hnd : ((k, v) ::ₘ entries m).Nodup :=
    Multiset.nodup_cons.mpr ⟨by simp [h], entries_nodup m⟩
  refine (Multiset.Nodup.ext (entries_nodup _) hnd).mpr ?_
  rintro ⟨a, w⟩
  simp only [mem_entries, getElem?_insert, Multiset.mem_cons, Prod.mk.injEq]
  by_cases hk : k = a
  · subst hk
    simp [h, eq_comm]
  · simp [hk, Ne.symm hk]

/-- Replacing a value: the old entry and the new map together are the new entry and the old map. -/
theorem cons_entries_insert_of_some {m : ExtTreeMap K V} {k : K} {w : V} (h : m[k]? = some w)
    (v : V) : (k, w) ::ₘ entries (m.insert k v) = (k, v) ::ₘ entries m := by
  classical
  have hold : (k, w) ∈ entries m := mem_entries.mpr h
  have hnew : entries (m.insert k v) = (k, v) ::ₘ (entries m).erase (k, w) := by
    have hnd : ((k, v) ::ₘ (entries m).erase (k, w)).Nodup := by
      refine Multiset.nodup_cons.mpr ⟨?_, (entries_nodup m).erase _⟩
      intro hmem
      have hv := mem_entries.mp (Multiset.mem_of_mem_erase hmem)
      have heq : w = v := Option.some.inj (h.symm.trans hv)
      subst heq
      exact (Multiset.Nodup.notMem_erase (entries_nodup m)) hmem
    refine (Multiset.Nodup.ext (entries_nodup _) hnd).mpr ?_
    rintro ⟨a, x⟩
    simp only [mem_entries, getElem?_insert, Multiset.mem_cons, Prod.mk.injEq,
      (entries_nodup m).mem_erase_iff, ne_eq]
    by_cases hk : k = a
    · subst hk
      simp only [if_true, Option.some.injEq, true_and, h, eq_comm]
      constructor
      · exact Or.inl
      · rintro (hx | ⟨hne, hx⟩)
        · exact hx
        · exact absurd hx hne
    · simp [hk, Ne.symm hk]
  rw [hnew, Multiset.cons_swap, Multiset.cons_erase hold]

theorem keySet_insert_of_none {m : ExtTreeMap K V} {k : K} (h : m[k]? = none) (v : V) :
    keySet (m.insert k v) = k ::ₘ keySet m := by
  simp [keySet, entries_insert_of_none h]

theorem keySet_insert_of_some {m : ExtTreeMap K V} {k : K} {w : V} (h : m[k]? = some w) (v : V) :
    keySet (m.insert k v) = keySet m := by
  have hc := congrArg (Multiset.map Prod.fst) (cons_entries_insert_of_some h v)
  simpa [keySet] using hc

theorem valueSum_insert (m : ExtTreeMap K Nat) (k : K) (v : Nat) :
    valueSum (m.insert k v) + m.getD k 0 = valueSum m + v := by
  cases h : m[k]? with
  | none =>
    have hd : m.getD k 0 = 0 := by simp [ExtTreeMap.getD_eq_getD_getElem?, h]
    rw [valueSum, valueSum, entries_insert_of_none h, Multiset.map_cons, Multiset.sum_cons, hd]
    exact Nat.add_comm v _
  | some w =>
    have hd : m.getD k 0 = w := by simp [ExtTreeMap.getD_eq_getD_getElem?, h]
    have hc := congrArg Multiset.sum
      (congrArg (Multiset.map Prod.snd) (cons_entries_insert_of_some h v))
    rw [Multiset.map_cons, Multiset.map_cons, Multiset.sum_cons, Multiset.sum_cons] at hc
    rw [hd]
    exact (Nat.add_comm _ _).trans (hc.trans (Nat.add_comm _ _))

theorem getD_le_valueSum (m : ExtTreeMap K Nat) (k : K) : m.getD k 0 ≤ valueSum m := by
  have h := valueSum_insert m k 0
  omega

/-- The values at different keys together are at most the sum. -/
theorem sum_getD_le_valueSum (m : ExtTreeMap K Nat) {l : List K} (hl : l.Nodup) :
    (l.map fun k => m.getD k 0).sum ≤ valueSum m := by
  induction l generalizing m with
  | nil => exact Nat.zero_le _
  | cons k l ih =>
    obtain ⟨hk, hl⟩ := List.nodup_cons.mp hl
    have hrest := ih (m.insert k 0) hl
    have hsame : l.map (fun a => (m.insert k 0).getD a 0) = l.map fun a => m.getD a 0 := by
      apply List.map_congr_left
      intro a ha
      rw [getD_insert, if_neg]
      rintro rfl
      exact hk ha
    have hsum := valueSum_insert m k 0
    rw [hsame] at hrest
    rw [List.map_cons, List.sum_cons]
    omega

theorem bag_insert_append (m : ExtTreeMap K (List V)) (k : K) (a : V) :
    bag (m.insert k (m.getD k [] ++ [a])) = a ::ₘ bag m := by
  rw [bag_eq_bind, bag_eq_bind]
  cases h : m[k]? with
  | none =>
    simp [ExtTreeMap.getD_eq_getD_getElem?, h, entries_insert_of_none h]
  | some l =>
    have hc := congrArg (fun s => Multiset.bind s fun e : K × List V => (e.2 : Multiset V))
      (cons_entries_insert_of_some h (l ++ [a]))
    simp only [Multiset.cons_bind, ← Multiset.coe_add, add_assoc] at hc
    simpa [ExtTreeMap.getD_eq_getD_getElem?, h] using add_left_cancel hc

end OrderedMap
