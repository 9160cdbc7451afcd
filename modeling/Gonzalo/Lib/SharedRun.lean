import Mathlib

/-!
# Two lists past their shared run

`pastShared xs ys` is what `ys` has past the longest run that both lists begin with. Put
behind `xs` it makes a list that both are found in, in order.
-/

set_option autoImplicit false

namespace Gonzalo.Lib

variable {α β : Type} [DecidableEq α]

/-- The rest of `ys` past the longest prefix it shares with `xs`. -/
def pastShared : List α → List α → List α
  | x :: xs, y :: ys => if x = y then pastShared xs ys else y :: ys
  | [], ys => ys
  | _ :: _, [] => []

@[simp] theorem pastShared_nil_left (ys : List α) : pastShared [] ys = ys := by
  cases ys <;> rfl

@[simp] theorem pastShared_nil_right (xs : List α) : pastShared xs [] = [] := by
  cases xs <;> rfl

@[simp] theorem pastShared_cons_self (x : α) (xs ys : List α) :
    pastShared (x :: xs) (x :: ys) = pastShared xs ys := by
  rw [pastShared, if_pos rfl]

/-- A shared run can be dropped from both lists. -/
@[simp] theorem pastShared_append_append (run xs ys : List α) :
    pastShared (run ++ xs) (run ++ ys) = pastShared xs ys := by
  induction run with
  | nil => rfl
  | cons x run ih => simpa using ih

/-- Both lists are the shared run and a rest, and the rests begin differently. -/
theorem exists_sharedRun (xs ys : List α) :
    ∃ run rest, xs = run ++ rest ∧ ys = run ++ pastShared xs ys ∧
      ∀ x ∈ rest.head?, ∀ y ∈ (pastShared xs ys).head?, x ≠ y := by
  induction xs generalizing ys with
  | nil => exact ⟨[], [], rfl, by simp, by simp⟩
  | cons x xs ih =>
    cases ys with
    | nil => exact ⟨[], x :: xs, rfl, by simp, by simp⟩
    | cons y ys =>
      by_cases same : x = y
      · subst same
        obtain ⟨run, rest, atXs, atYs, apart⟩ := ih ys
        rw [pastShared_cons_self]
        exact ⟨x :: run, rest, congrArg (x :: ·) atXs, congrArg (x :: ·) atYs, apart⟩
      · rw [pastShared, if_neg same]
        exact ⟨[], x :: xs, rfl, rfl, by simpa using same⟩

@[simp] theorem pastShared_self (xs : List α) : pastShared xs xs = [] := by
  simpa using pastShared_append_append xs [] []

/-- A list has nothing past one that it begins. -/
@[simp] theorem pastShared_append_left (xs more : List α) : pastShared (xs ++ more) xs = [] := by
  simpa using pastShared_append_append xs more []

@[simp] theorem pastShared_append_right (xs more : List α) : pastShared xs (xs ++ more) = more := by
  simpa using pastShared_append_append xs [] more

/-- Lists that begin differently share nothing. -/
theorem pastShared_of_apart {xs ys : List α} (apart : ∀ x ∈ xs.head?, ∀ y ∈ ys.head?, x ≠ y) :
    pastShared xs ys = ys := by
  cases xs with
  | nil => simp
  | cons x xs =>
    cases ys with
    | nil => simp
    | cons y ys => rw [pastShared, if_neg (apart x rfl y rfl)]

/-- Both lists are the shared run and what each has past it. -/
theorem exists_shared_and_past (xs ys : List α) :
    ∃ run, xs = run ++ pastShared ys xs ∧ ys = run ++ pastShared xs ys := by
  obtain ⟨run, rest, atXs, atYs, apart⟩ := exists_sharedRun xs ys
  have past : pastShared ys xs = rest := by
    conv_lhs => rw [atXs, atYs]
    rw [pastShared_append_append, pastShared_of_apart fun y memY x memX => (apart x memX y memY).symm]
  exact ⟨run, by rw [past, ← atXs], atYs⟩

/-- The first list with the rest of the second put behind repeats nothing, if neither list
does and what they have past the shared run is disjoint. -/
theorem nodup_append_pastShared {xs ys : List α} (onceX : xs.Nodup) (onceY : ys.Nodup)
    (disjoint : ∀ x ∈ pastShared ys xs, x ∉ pastShared xs ys) : (xs ++ pastShared xs ys).Nodup := by
  obtain ⟨run, atXs, atYs⟩ := exists_shared_and_past xs ys
  rw [atYs, List.nodup_append] at onceY
  refine List.nodup_append.mpr ⟨onceX, onceY.2.1, fun x inXs y past same => ?_⟩
  subst same
  rw [atXs, List.mem_append] at inXs
  rcases inXs with shared | own
  · exact onceY.2.2 x shared x past rfl
  · exact disjoint x own past

theorem pastShared_sublist (xs ys : List α) : (pastShared xs ys).Sublist ys := by
  obtain ⟨run, -, -, atYs, -⟩ := exists_sharedRun xs ys
  conv_rhs => rw [atYs]
  exact List.sublist_append_right _ _

/-- The second list is found, in order, in the first with the rest put behind. -/
theorem sublist_append_pastShared (xs ys : List α) : ys.Sublist (xs ++ pastShared xs ys) := by
  obtain ⟨run, rest, atXs, atYs, -⟩ := exists_sharedRun xs ys
  generalize pastShared xs ys = past at atYs
  rw [atXs, atYs, List.append_assoc]
  exact List.Sublist.append_left (List.sublist_append_right _ _) _

/-- Walking both lists for as long as they agree counts the shared run. -/
theorem map_drop_takeWhile (f : β → α) (xs ys : List β) :
    (ys.drop ((xs.zip ys).takeWhile fun p => f p.1 = f p.2).length).map f =
      pastShared (xs.map f) (ys.map f) := by
  induction xs generalizing ys with
  | nil => simp
  | cons x xs ih =>
    cases ys with
    | nil => simp
    | cons y ys =>
      by_cases same : f x = f y
      · simpa [pastShared, same] using ih ys
      · simp [pastShared, same]

end Gonzalo.Lib
