import Mathlib

/-!
# The newest members of a list

A bounded history keeps the largest `cap` distinct members of the lists it is
folded from. `newest` computes them by sorting downwards, dropping repeats,
dropping the excluded members and cutting at `cap`; the lemmas say what is left
without mentioning how: a strictly descending list, and a member survives exactly
when fewer than `cap` distinct admitted members are larger.
-/

set_option autoImplicit false

namespace Gonzalo.Lib

variable {α : Type} [LinearOrder α]

/-- Sort from the largest down and drop repeats. -/
def descending (xs : List α) : List α :=
  (xs.insertionSort (· ≥ ·)).destutter (· ≠ ·)

theorem mem_destutter_ne {x : α} : ∀ {xs : List α}, x ∈ xs.destutter (· ≠ ·) ↔ x ∈ xs
  | [] => Iff.rfl
  | [a] => Iff.rfl
  | a :: b :: rest => by
    rw [List.destutter_cons_cons]
    split
    · rw [List.mem_cons, ← List.destutter_cons', mem_destutter_ne, List.mem_cons, List.mem_cons,
        List.mem_cons]
    next same =>
      have same : a = b := not_not.mp same
      rw [← List.destutter_cons', mem_destutter_ne, same]
      simp

theorem mem_descending {x : α} {xs : List α} : x ∈ descending xs ↔ x ∈ xs :=
  mem_destutter_ne.trans (List.mem_insertionSort _)

theorem pairwise_descending (xs : List α) : (descending xs).Pairwise (· > ·) := by
  have sorted : (descending xs).Pairwise (· ≥ ·) :=
    (List.pairwise_insertionSort (· ≥ ·) xs).sublist (List.destutter_sublist _ _)
  have distinct : (descending xs).IsChain (· ≠ ·) := List.isChain_destutter _ _
  have strict : (descending xs).IsChain (· > ·) :=
    List.isChain_iff_getElem.mpr fun i inside =>
      lt_of_le_of_ne (List.isChain_iff_getElem.mp sorted.isChain i inside)
        (List.isChain_iff_getElem.mp distinct i inside).symm
  exact strict.pairwise

/-- The members of `xs` in ascending order, each once: the iteration order of an
ordered set of them. -/
def ascending (xs : List α) : List α := (descending xs).reverse

@[simp] theorem mem_ascending {x : α} {xs : List α} : x ∈ ascending xs ↔ x ∈ xs := by
  rw [ascending, List.mem_reverse, mem_descending]

theorem pairwise_ascending (xs : List α) : (ascending xs).Pairwise (· < ·) :=
  List.pairwise_reverse.mpr (pairwise_descending xs)

/-- Only what a list holds decides its ascending form. -/
theorem ascending_congr {xs ys : List α} (same : ∀ x, x ∈ xs ↔ x ∈ ys) :
    ascending xs = ascending ys :=
  (pairwise_ascending xs).eq_of_mem_iff (pairwise_ascending ys) (by simpa using same)

theorem nodup_ascending (xs : List α) : (ascending xs).Nodup :=
  (pairwise_ascending xs).imp fun lt => ne_of_lt lt

/-- The largest `cap` distinct members of `xs` that `keep` admits, largest first. -/
def newest (cap : Nat) (keep : α → Bool) (xs : List α) : List α :=
  ((descending xs).filter keep).take cap

theorem pairwise_newest (cap : Nat) (keep : α → Bool) (xs : List α) :
    (newest cap keep xs).Pairwise (· > ·) :=
  ((pairwise_descending xs).filter keep).sublist (List.take_sublist _ _)

theorem length_newest_le (cap : Nat) (keep : α → Bool) (xs : List α) :
    (newest cap keep xs).length ≤ cap := List.length_take_le _ _

theorem mem_of_mem_newest {cap : Nat} {keep : α → Bool} {xs : List α} {x : α}
    (member : x ∈ newest cap keep xs) : x ∈ xs ∧ keep x = true := by
  have kept := List.mem_filter.mp (List.mem_of_mem_take member)
  exact ⟨mem_descending.mp kept.1, kept.2⟩

/-- A member of a strictly descending list is among its first `cap` exactly when
fewer than `cap` members are larger. -/
theorem mem_take_iff_of_pairwise_gt {cap : Nat} {x : α} {xs : List α}
    (sorted : xs.Pairwise (· > ·)) :
    x ∈ xs.take cap ↔ x ∈ xs ∧ (xs.filter (x < ·)).length < cap := by
  induction xs generalizing cap with
  | nil => simp
  | cons head rest ih =>
    obtain ⟨above, sorted_rest⟩ := List.pairwise_cons.mp sorted
    cases cap with
    | zero => simp
    | succ cap =>
      rw [List.take_succ_cons, List.mem_cons, List.mem_cons, ih sorted_rest]
      by_cases here : x = head
      · subst here
        have none_larger : rest.filter (x < ·) = [] :=
          List.filter_eq_nil_iff.mpr fun y member => by
            simpa using (above y member).le
        simp [none_larger]
      · constructor
        · rintro (absurd_here | ⟨member, few⟩)
          · exact absurd absurd_here here
          · refine ⟨Or.inr member, ?_⟩
            rw [List.filter_cons_of_pos (by simpa using above x member), List.length_cons]
            omega
        · rintro ⟨at_head | member, few⟩
          · exact absurd at_head here
          · rw [List.filter_cons_of_pos (by simpa using above x member), List.length_cons] at few
            exact Or.inr ⟨member, by omega⟩

/-- Which members `newest` keeps. -/
theorem mem_newest_iff {cap : Nat} {keep : α → Bool} {xs : List α} {x : α} :
    x ∈ newest cap keep xs ↔
      x ∈ xs ∧ keep x = true ∧
        (xs.toFinset.filter fun y => keep y = true ∧ x < y).card < cap := by
  have sorted := (pairwise_descending xs).filter keep
  have distinct : (((descending xs).filter keep).filter (x < ·)).Nodup :=
    (sorted.imp fun gt => ne_of_gt gt).filter _
  have count : (((descending xs).filter keep).filter (x < ·)).length =
      (xs.toFinset.filter fun y => keep y = true ∧ x < y).card := by
    rw [← List.toFinset_card_of_nodup distinct]
    congr 1
    ext y
    simp only [List.mem_toFinset, List.mem_filter, Finset.mem_filter, mem_descending,
      decide_eq_true_eq, and_assoc]
  rw [newest, mem_take_iff_of_pairwise_gt sorted, count, List.mem_filter, mem_descending, and_assoc]

/-- Of the members above `r`, trading the exclusion of `p` for that of `q` and adding `p`
loses none, when `p` is above `r` wherever `q` was counted. -/
theorem card_above_insert {p q r : α} {xs : List α}
    (above : q ∈ xs → r < q → r < p) :
    (xs.toFinset.filter fun x => x ≠ p ∧ r < x).card ≤
      ((p :: xs).toFinset.filter fun x => x ≠ q ∧ r < x).card := by
  by_cases counted : q ∈ xs.toFinset.filter fun x => x ≠ p ∧ r < x
  · obtain ⟨listed, other, higher⟩ := Finset.mem_filter.mp counted
    have traded : insert p ((xs.toFinset.filter fun x => x ≠ p ∧ r < x).erase q) ⊆
        (p :: xs).toFinset.filter fun x => x ≠ q ∧ r < x := by
      intro x member
      rcases Finset.mem_insert.mp member with rfl | kept
      · exact Finset.mem_filter.mpr
          ⟨by simp, other.symm, above (List.mem_toFinset.mp listed) higher⟩
      · obtain ⟨notQ, kept⟩ := Finset.mem_erase.mp kept
        obtain ⟨inside, -, up⟩ := Finset.mem_filter.mp kept
        exact Finset.mem_filter.mpr ⟨by simpa using Or.inr (List.mem_toFinset.mp inside), notQ, up⟩
    have fresh : p ∉ (xs.toFinset.filter fun x => x ≠ p ∧ r < x).erase q := by simp
    have count := Finset.card_le_card traded
    rwa [Finset.card_insert_of_notMem fresh, Finset.card_erase_of_mem counted,
      Nat.sub_add_cancel (Finset.card_pos.mpr ⟨q, counted⟩)] at count
  · refine Finset.card_le_card fun x member => ?_
    obtain ⟨inside, -, up⟩ := Finset.mem_filter.mp member
    refine Finset.mem_filter.mpr ⟨by simpa using Or.inr (List.mem_toFinset.mp inside), ?_, up⟩
    rintro rfl
    exact counted member

/-! ## The largest members of a set -/

/-- The members of `s` with fewer than `cap` larger ones. -/
def largest (cap : Nat) (s : Finset α) : Finset α := s.filter fun x => (s.filter (x < ·)).card < cap

theorem mem_largest {cap : Nat} {s : Finset α} {x : α} :
    x ∈ largest cap s ↔ x ∈ s ∧ (s.filter (x < ·)).card < cap := Finset.mem_filter

/-- A new smallest member has all others above it, and no other has one more. -/
theorem largest_insert_min {cap : Nat} {s : Finset α} {m : α} (below : ∀ x ∈ s, m < x) :
    largest cap (insert m s) = if s.card < cap then insert m (largest cap s) else largest cap s := by
  have fresh : m ∉ s := fun member => lt_irrefl m (below m member)
  have above : (insert m s).filter (m < ·) = s := by
    rw [Finset.filter_insert, if_neg (lt_irrefl m), Finset.filter_true_of_mem below]
  have others : ∀ x ∈ s, (insert m s).filter (x < ·) = s.filter (x < ·) := fun x member => by
    rw [Finset.filter_insert, if_neg (below x member).le.not_gt]
  have kept : ∀ x, x ∈ largest cap (insert m s) ↔ x = m ∧ s.card < cap ∨ x ∈ largest cap s := by
    intro x
    rw [mem_largest, mem_largest, Finset.mem_insert]
    constructor
    · rintro ⟨rfl | member, few⟩
      · exact Or.inl ⟨rfl, above ▸ few⟩
      · exact Or.inr ⟨member, others x member ▸ few⟩
    · rintro (⟨rfl, few⟩ | ⟨member, few⟩)
      · exact ⟨Or.inl rfl, above.symm ▸ few⟩
      · exact ⟨Or.inr member, (others x member).symm ▸ few⟩
  ext x
  rw [kept]
  split
  next few => simp [few]
  next many => simp [many]

theorem card_largest (cap : Nat) (s : Finset α) : (largest cap s).card = min cap s.card := by
  induction s using Finset.induction_on_min with
  | empty => simp [largest]
  | insert m s below ih =>
    have fresh : m ∉ s := fun member => lt_irrefl m (below m member)
    rw [largest_insert_min below, Finset.card_insert_of_notMem fresh]
    split
    · rw [Finset.card_insert_of_notMem fun member => fresh (mem_largest.mp member).1, ih]
      omega
    · omega

/-- Without `x` there is room for one more exactly if there was before or `x` was among them. -/
theorem card_largest_erase_lt_iff {cap : Nat} (room : 0 < cap) {s : Finset α} {x : α} :
    ((largest cap s).erase x).card < cap ↔ s.card < cap ∨ x ∈ largest cap s := by
  have size := card_largest cap s
  by_cases member : x ∈ largest cap s
  · rw [Finset.card_erase_of_mem member]
    exact iff_of_true (by omega) (Or.inr member)
  · rw [Finset.erase_eq_of_notMem member, or_iff_left member, size]
    omega

end Gonzalo.Lib
