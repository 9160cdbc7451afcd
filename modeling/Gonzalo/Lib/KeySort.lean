import Mathlib

/-!
# Entries sorted by their keys

A stable sort of keyed entries. With distinct keys the sorted list does not depend on the
order before; with or without, the map that the entries make, the last one of a key
winning, is the same before and after.
-/

set_option autoImplicit false

namespace Gonzalo.Lib

variable {κ τ : Type} [LinearOrder κ]

/-- The entries in key order, those of one key in the order they had. -/
def byKey (entries : List (κ × τ)) : List (κ × τ) :=
  entries.mergeSort fun a b => decide (a.1 ≤ b.1)

theorem byKey_perm (entries : List (κ × τ)) : (byKey entries).Perm entries :=
  List.mergeSort_perm entries _

private theorem keyLe_trans (a b c : κ × τ) (first : decide (a.1 ≤ b.1))
    (second : decide (b.1 ≤ c.1)) : decide (a.1 ≤ c.1) := by
  simp only [decide_eq_true_eq] at first second ⊢
  exact le_trans first second

private theorem keyLe_total (a b : κ × τ) : decide (a.1 ≤ b.1) || decide (b.1 ≤ a.1) := by
  simp only [Bool.or_eq_true, decide_eq_true_eq]
  exact le_total a.1 b.1

theorem byKey_le (entries : List (κ × τ)) : (byKey entries).Pairwise fun a b => a.1 ≤ b.1 := by
  have sorted := List.pairwise_mergeSort keyLe_trans keyLe_total entries
  apply sorted.imp
  intro a b below
  simpa using below

/-- Distinct keys come out in strict order. -/
theorem byKey_lt {entries : List (κ × τ)} (distinct : (entries.map Prod.fst).Nodup) :
    (byKey entries).Pairwise fun a b => a.1 < b.1 := by
  have apart : ((byKey entries).map Prod.fst).Nodup :=
    ((byKey_perm entries).map Prod.fst).nodup_iff.mpr distinct
  have both := (byKey_le entries).and (List.pairwise_map.mp apart)
  apply both.imp
  intro a b pair
  exact lt_of_le_of_ne pair.1 pair.2

/-- Entries with distinct keys have one sorted list, in whatever order they came. -/
theorem byKey_congr {entries entries' : List (κ × τ)} (perm : entries'.Perm entries)
    (distinct : (entries.map Prod.fst).Nodup) : byKey entries' = byKey entries := by
  have distinct' : (entries'.map Prod.fst).Nodup := (perm.map Prod.fst).nodup_iff.mpr distinct
  have same : (byKey entries').Perm (byKey entries) :=
    (byKey_perm entries').trans (perm.trans (byKey_perm entries).symm)
  refine List.Perm.eq_of_pairwise ?_ (byKey_lt distinct') (byKey_lt distinct) same
  intro a b _ _ below above
  exact absurd above (lt_asymm below)

/-- Sorting leaves the entries of one key in their order. -/
theorem filter_byKey (entries : List (κ × τ)) (key : κ) :
    (byKey entries).filter (fun entry => decide (entry.1 = key)) =
      entries.filter fun entry => decide (entry.1 = key) := by
  have tied : (entries.filter fun entry => decide (entry.1 = key)).Pairwise
      fun a b => decide (a.1 ≤ b.1) = true := by
    apply List.pairwise_of_forall_mem_list
    intro a memberA b memberB
    have keyA : a.1 = key := by simpa using (List.mem_filter.mp memberA).2
    have keyB : b.1 = key := by simpa using (List.mem_filter.mp memberB).2
    simp [keyA, keyB]
  have kept := (List.sublist_mergeSort keyLe_trans keyLe_total tied List.filter_sublist).filter
    fun entry => decide (entry.1 = key)
  rw [List.filter_filter] at kept
  simp only [Bool.and_self] at kept
  have length := ((byKey_perm entries).filter fun entry => decide (entry.1 = key)).length_eq
  exact (kept.eq_of_length length.symm).symm

/-! ## The map that entries make -/

/-- Inserted one by one: of the entries of one key, the last wins. -/
def entryMap (entries : List (κ × τ)) : Std.ExtTreeMap κ τ compare :=
  entries.foldl (fun map entry => map.insert entry.1 entry.2) ∅

theorem getElem?_entryMap [Std.TransOrd κ] [Std.LawfulEqOrd κ] (entries : List (κ × τ)) (key : κ) :
    (entryMap entries)[key]? =
      ((entries.filter fun entry => decide (entry.1 = key)).getLast?).map Prod.snd := by
  unfold entryMap
  induction entries using List.reverseRecOn with
  | nil => simp
  | append_singleton entries entry ih =>
    rw [List.foldl_append, List.foldl_cons, List.foldl_nil, Std.ExtTreeMap.getElem?_insert, ih,
      List.filter_append]
    by_cases here : entry.1 = key
    · simp [here]
    · simp [here]

theorem entryMap_byKey [Std.TransOrd κ] [Std.LawfulEqOrd κ] (entries : List (κ × τ)) :
    entryMap (byKey entries) = entryMap entries := by
  apply Std.ExtTreeMap.ext_getElem?
  intro key
  rw [getElem?_entryMap, getElem?_entryMap, filter_byKey]

end Gonzalo.Lib
