import Gonzalo.Core.Merge
import Gonzalo.Lib.SharedRun

/-!
# The lines of an append-only merge

`append_only_merge`, `strip_nl` and `split_lines` of `gonzalo-core/src/merge.rs`, for any
two bodies. The lines of the merge, without their newlines, are the lines of `ours` and
the lines of `theirs` past the run that both begin with.
-/

set_option autoImplicit false

namespace Gonzalo.Core

open Lib

/-! ## Lists of lines -/

/-- What `split_lines` can return: each line ends in its only newline, and the last one
may have none. -/
inductive Lines : List Bytes → Prop
  | nil : Lines []
  | unterminated {text : Bytes} (some : text ≠ []) (one : newline ∉ text) : Lines [text]
  | cons {text : Bytes} {rest : List Bytes} (one : newline ∉ text) (more : Lines rest) :
      Lines ((text ++ [newline]) :: rest)

theorem splitLines_unterminated {text : Bytes} (some : text ≠ []) (one : newline ∉ text) :
    splitLines text = [text] := by
  induction text with
  | nil => exact absurd rfl some
  | cons b text ih =>
    rw [List.mem_cons, not_or] at one
    rw [splitLines, if_neg (Ne.symm one.1)]
    by_cases empty : text = []
    · rw [empty]
      rfl
    · rw [ih empty one.2]

theorem splitLines_append_newline {text : Bytes} (one : newline ∉ text) (rest : Bytes) :
    splitLines (text ++ newline :: rest) = (text ++ [newline]) :: splitLines rest := by
  induction text with
  | nil => rw [List.nil_append, splitLines, if_pos rfl, List.nil_append]
  | cons b text ih =>
    rw [List.mem_cons, not_or] at one
    rw [List.cons_append, splitLines, if_neg (Ne.symm one.1), ih one.2]
    rfl

theorem Lines.splitLines_flatten {lines : List Bytes} (wellFormed : Lines lines) :
    splitLines lines.flatten = lines := by
  induction wellFormed with
  | nil => rfl
  | unterminated some one => simpa using splitLines_unterminated some one
  | cons one more ih =>
    rw [List.flatten_cons, List.append_assoc, List.singleton_append,
      splitLines_append_newline one, ih]

theorem lines_splitLines (bytes : Bytes) : Lines (splitLines bytes) := by
  fun_induction splitLines bytes with
  | case1 => exact .nil
  | case2 rest ih => exact @Lines.cons [] _ (by simp) ih
  | case3 b rest other none ih =>
    exact .unterminated (by simp) (by simpa using Ne.symm other)
  | case4 b rest other line lines split ih =>
    rw [split] at ih
    cases ih with
    | unterminated some one =>
      exact .unterminated (by simp) (by simpa [one] using Ne.symm other)
    | cons one more =>
      exact @Lines.cons (b :: _) _ (by simpa [one] using Ne.symm other) more

theorem Lines.drop {lines : List Bytes} (wellFormed : Lines lines) (n : Nat) :
    Lines (lines.drop n) := by
  induction wellFormed generalizing n with
  | nil => simpa using Lines.nil
  | unterminated some one =>
    cases n with
    | zero => exact .unterminated some one
    | succ n => simpa using Lines.nil
  | cons one more ih =>
    cases n with
    | zero => exact .cons one more
    | succ n => exact ih n

/-- A body after which a new line may start. -/
def Terminated (bytes : Bytes) : Prop := ∀ last ∈ bytes.getLast?, last = newline

/-- Behind a finished line the split starts afresh. -/
theorem splitLines_append {first second : Bytes} (finished : Terminated first) :
    splitLines (first ++ second) = splitLines first ++ splitLines second := by
  have wellFormed := lines_splitLines first
  rw [← splitLines_flatten first] at finished ⊢
  generalize splitLines first = lines at wellFormed finished
  rw [wellFormed.splitLines_flatten]
  induction wellFormed with
  | nil => rfl
  | @unterminated text some one =>
    exfalso
    refine one (finished _ ?_ ▸ List.getLast_mem some)
    simp [List.getLast?_eq_some_getLast some]
  | @cons text rest one more ih =>
    rw [List.flatten_cons, List.append_assoc, List.append_assoc, List.singleton_append,
      splitLines_append_newline one, ih, List.cons_append]
    intro last isLast
    refine finished last ?_
    rw [List.flatten_cons, List.getLast?_append, isLast]
    rfl

/-! ## The texts of the lines -/

/-- The lines of a body, without their newlines. -/
def lineTexts (bytes : Bytes) : List Bytes := (splitLines bytes).map stripNl

theorem stripNl_of_notMem {text : Bytes} (one : newline ∉ text) : stripNl text = text := by
  rw [stripNl, if_neg fun last => one (List.mem_of_getLast? last)]

theorem stripNl_append_newline (text : Bytes) : stripNl (text ++ [newline]) = text := by
  rw [stripNl, if_pos (by simp), List.dropLast_concat]

theorem lineTexts_append {first second : Bytes} (finished : Terminated first) :
    lineTexts (first ++ second) = lineTexts first ++ lineTexts second := by
  rw [lineTexts, splitLines_append finished, List.map_append]
  rfl

/-- A newline that finishes the last line changes no text. -/
theorem lineTexts_append_newline {bytes : Bytes} (unfinished : ¬ Terminated bytes) :
    lineTexts (bytes ++ [newline]) = lineTexts bytes := by
  have wellFormed := lines_splitLines bytes
  rw [← splitLines_flatten bytes] at unfinished ⊢
  generalize splitLines bytes = lines at wellFormed unfinished
  induction wellFormed with
  | nil => exact absurd (by simp [Terminated]) unfinished
  | @unterminated text some one =>
    rw [List.flatten_singleton, lineTexts, lineTexts, splitLines_append_newline one,
      splitLines_unterminated some one]
    simp [splitLines, stripNl_append_newline, stripNl_of_notMem one]
  | @cons text rest one more ih =>
    have later : ¬ Terminated rest.flatten := by
      intro finished
      refine unfinished fun last isLast => ?_
      rw [List.flatten_cons, List.getLast?_append] at isLast
      cases ends : rest.flatten.getLast? with
      | none => simpa [ends] using isLast.symm
      | some b => exact finished last (by simpa [ends] using isLast)
    have more := ih later
    rw [lineTexts, lineTexts] at more
    rw [List.flatten_cons, List.append_assoc, List.append_assoc text, List.append_assoc,
      List.singleton_append, List.singleton_append, lineTexts, lineTexts,
      splitLines_append_newline one, splitLines_append_newline one, List.map_cons, List.map_cons,
      more]

/-- The lines as a client appends them. -/
def textOf (lines : List Bytes) : Bytes := (lines.map (· ++ [newline])).flatten

theorem terminated_append {first second : Bytes} (finished : Terminated first)
    (finished' : Terminated second) : Terminated (first ++ second) := by
  intro last isLast
  rw [List.getLast?_append] at isLast
  cases ends : second.getLast? with
  | none => exact finished last (by simpa [ends] using isLast)
  | some b => exact finished' last (by simpa [ends] using isLast)

theorem terminated_textOf (lines : List Bytes) : Terminated (textOf lines) := by
  induction lines with
  | nil => simp [textOf, Terminated]
  | cons line lines ih =>
    refine terminated_append ?_ ih
    simp [Terminated]

theorem lineTexts_textOf {lines : List Bytes} (one : ∀ line ∈ lines, newline ∉ line) :
    lineTexts (textOf lines) = lines := by
  induction lines with
  | nil => rfl
  | cons line lines ih =>
    rw [List.forall_mem_cons] at one
    have first : lineTexts (line ++ [newline]) = [line] := by
      rw [lineTexts, splitLines_append_newline one.1, List.map_cons, stripNl_append_newline]
      rfl
    rw [textOf, List.map_cons, List.flatten_cons, lineTexts_append (by simp [Terminated]), first]
    exact congrArg (line :: ·) (ih one.2)

/-! ## The merge -/

/-- What `append_only_merge` puts behind `ours`. -/
def tailLines (ours theirs : Bytes) : List Bytes :=
  (splitLines theirs).drop (((splitLines ours).zip (splitLines theirs)).takeWhile
    fun p => stripNl p.1 = stripNl p.2).length

/-- `ours` as the tail is put behind it, with its last line finished. -/
def finishLine (ours : Bytes) (tail : List Bytes) : Bytes :=
  if tail ≠ [] ∧ ours.getLast?.any (· ≠ newline) then ours ++ [newline] else ours

theorem appendOnlyMerge_eq (base ours theirs : Body) :
    appendOnlyMerge base ours theirs =
      .merged (.inline (finishLine ours.bytes (tailLines ours.bytes theirs.bytes) ++
        (tailLines ours.bytes theirs.bytes).flatten)) := rfl

theorem tailLines_texts (ours theirs : Bytes) :
    (tailLines ours theirs).map stripNl = pastShared (lineTexts ours) (lineTexts theirs) :=
  map_drop_takeWhile stripNl _ _

theorem prefix_finishLine (ours : Bytes) (tail : List Bytes) : ours <+: finishLine ours tail := by
  unfold finishLine
  split
  · exact List.prefix_append _ _
  · exact List.prefix_rfl

theorem lineTexts_finishLine (ours : Bytes) (tail : List Bytes) :
    lineTexts (finishLine ours tail) = lineTexts ours := by
  unfold finishLine
  split
  next unfinished =>
    refine lineTexts_append_newline fun ended => ?_
    obtain ⟨last, isLast, other⟩ := (Option.any_eq_true _ _).mp unfinished.2
    exact absurd (ended last isLast) (of_decide_eq_true other)
  · rfl

theorem terminated_finishLine {ours : Bytes} {tail : List Bytes} (some : tail ≠ []) :
    Terminated (finishLine ours tail) := by
  unfold finishLine
  split
  · simp [Terminated]
  next closed =>
    intro last isLast
    by_contra other
    exact closed ⟨some, by simp [Option.mem_def.mp isLast, other]⟩

theorem terminated_merge {ours theirs : Bytes} (finished : Terminated ours)
    (finished' : Terminated theirs) :
    Terminated (finishLine ours (tailLines ours theirs) ++ (tailLines ours theirs).flatten) := by
  by_cases none : tailLines ours theirs = []
  · simpa [none, finishLine] using finished
  · refine terminated_append (terminated_finishLine none) fun last isLast => finished' last ?_
    rw [← splitLines_flatten theirs, ← List.take_append_drop _ (splitLines theirs),
      List.flatten_append, List.getLast?_append]
    rw [tailLines] at isLast
    rw [isLast]
    rfl

/-- The split of a merge is that of the finished `ours` and the tail. -/
theorem splitLines_merge (ours theirs : Bytes) :
    splitLines (finishLine ours (tailLines ours theirs) ++ (tailLines ours theirs).flatten) =
      splitLines (finishLine ours (tailLines ours theirs)) ++ tailLines ours theirs := by
  have wellFormed : Lines (tailLines ours theirs) := (lines_splitLines theirs).drop _
  by_cases none : tailLines ours theirs = []
  · simp [none]
  · rw [splitLines_append (terminated_finishLine none), wellFormed.splitLines_flatten]

/-- What a merge of two texts of lines is meant to keep. -/
structure KeepsLines (ours theirs merged : Bytes) : Prop where
  oursFirst : ours <+: merged
  texts : lineTexts merged = lineTexts ours ++ pastShared (lineTexts ours) (lineTexts theirs)
  theirsInOrder : (lineTexts theirs).Sublist (lineTexts merged)

theorem keepsLines_merge (ours theirs : Bytes) :
    KeepsLines ours theirs
      (finishLine ours (tailLines ours theirs) ++ (tailLines ours theirs).flatten) := by
  have texts : lineTexts (finishLine ours (tailLines ours theirs) ++
      (tailLines ours theirs).flatten) =
      lineTexts ours ++ pastShared (lineTexts ours) (lineTexts theirs) := by
    rw [lineTexts, splitLines_merge, List.map_append, tailLines_texts, ← lineTexts,
      lineTexts_finishLine]
  refine ⟨(prefix_finishLine _ _).trans (List.prefix_append _ _), texts, ?_⟩
  rw [texts]
  exact sublist_append_pastShared _ _

/-- Nothing is behind `ours` when the texts of `theirs` are among its first ones. -/
theorem tailLines_eq_nil {ours theirs : Bytes}
    (begun : pastShared (lineTexts ours) (lineTexts theirs) = []) : tailLines ours theirs = [] := by
  have texts := tailLines_texts ours theirs
  rwa [begun, List.map_eq_nil_iff] at texts

theorem merge_of_tail_nil {base ours theirs : Body}
    (none : tailLines ours.bytes theirs.bytes = []) :
    appendOnlyMerge base ours theirs = .merged (.inline ours.bytes) := by
  rw [appendOnlyMerge_eq, none]
  simp [finishLine]

theorem merge_self (base : Body) (bytes : Bytes) :
    appendOnlyMerge base (.inline bytes) (.inline bytes) = .merged (.inline bytes) :=
  merge_of_tail_nil (tailLines_eq_nil (pastShared_self _))

/-- A merge has all of `ours` already. -/
theorem merge_result_ours (base : Body) {ours theirs merged : Bytes}
    (keeps : KeepsLines ours theirs merged) :
    appendOnlyMerge base (.inline merged) (.inline ours) = .merged (.inline merged) := by
  refine merge_of_tail_nil (tailLines_eq_nil ?_)
  rw [Body.bytes_inline, Body.bytes_inline, keeps.texts, pastShared_append_left]

/-- Walking `ours` beside a merge made from it stops where the tail was put. -/
theorem tailLines_merge (ours theirs : Bytes) :
    tailLines ours (finishLine ours (tailLines ours theirs) ++ (tailLines ours theirs).flatten) =
      tailLines ours theirs := by
  have texts : (splitLines (finishLine ours (tailLines ours theirs))).map stripNl =
      (splitLines ours).map stripNl := lineTexts_finishLine ours _
  conv_lhs => rw [tailLines, splitLines_merge]
  generalize tailLines ours theirs = tail at texts ⊢
  generalize splitLines (finishLine ours tail) = lines at texts ⊢
  generalize splitLines ours = lines' at texts ⊢
  induction lines generalizing lines' with
  | nil =>
    rw [List.map_nil, eq_comm, List.map_eq_nil_iff] at texts
    simp [texts]
  | cons line lines ih =>
    cases lines' with
    | nil => simp at texts
    | cons line' lines' =>
      rw [List.map_cons, List.map_cons, List.cons.injEq] at texts
      simpa [texts.1] using ih lines' texts.2

theorem merge_ours_result (base : Body) (ours theirs : Bytes) :
    appendOnlyMerge base (.inline ours)
        (.inline (finishLine ours (tailLines ours theirs) ++ (tailLines ours theirs).flatten)) =
      .merged (.inline (finishLine ours (tailLines ours theirs) ++
        (tailLines ours theirs).flatten)) := by
  rw [appendOnlyMerge_eq, Body.bytes_inline, Body.bytes_inline, tailLines_merge]

/-- Splitting a body into lines loses nothing; an append-only merge of two bodies keeps the
lines of both; and merging a body with itself, or a merge with `ours` once more, in either
order, changes nothing. -/
theorem append_only_loses_no_line (base : Body) (ours theirs : Bytes) :
    (splitLines ours).flatten = ours ∧
    appendOnlyMerge base (.inline ours) (.inline ours) = .merged (.inline ours) ∧
    ∃ merged, appendOnlyMerge base (.inline ours) (.inline theirs) = .merged (.inline merged) ∧
      KeepsLines ours theirs merged ∧
      (∀ base, appendOnlyMerge base (.inline merged) (.inline ours) = .merged (.inline merged)) ∧
      ∀ base, appendOnlyMerge base (.inline ours) (.inline merged) = .merged (.inline merged) :=
  ⟨splitLines_flatten ours, merge_self base ours, _, appendOnlyMerge_eq _ _ _,
    keepsLines_merge ours theirs, fun base => merge_result_ours base (keepsLines_merge ours theirs),
    fun base => merge_ours_result base ours theirs⟩

end Gonzalo.Core
