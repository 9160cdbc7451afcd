import Gonzalo.Index.Staging

/-!
# The two drivers, path by path

What the incremental driver makes of a path that git reports depends on the path and the
source only; a path that git does not report keeps its entry unless the rules drop it. Set
beside the entries of the full walk, this says when the two drivers build the same view.
-/

set_option autoImplicit false

namespace Gonzalo.Index
open Gonzalo.Core Gonzalo.Graph Gonzalo.Lib

section Drivers

variable [Blake3] [SliceJson] {source : Source}

/-! ## The full walk -/

/-- The slice that a full walk of the source has at the path. -/
def Source.sliceAt (source : Source) (rel : String) : Option Graph.CodeGraph :=
  (fullView source).staging.slice rel

/-- The full walk files what it stages, and removes nothing. -/
structure Filed (view : DesiredView) : Prop where
  entries : ∀ rel, view.entries[rel]? = (view.staging.slice rel).map sliceHash
  removes : view.staging.removes = []

theorem Filed.insert {view : DesiredView} (filed : Filed view) (rel : String)
    (slice : Graph.CodeGraph) : Filed (view.insert rel slice (sliceHash slice)) where
  entries path := by
    simp only [DesiredView.insert, Std.ExtTreeMap.getElem?_insert,
      Std.LawfulEqCmp.compare_eq_iff_eq, GraphStaging.slice_append]
    split
    · rfl
    · exact filed.entries path
  removes := filed.removes

theorem filed_fullView (source : Source) : Filed (fullView source) := by
  have start : Filed (.start ∅ false) := ⟨fun rel => by simp [DesiredView.start], rfl⟩
  unfold fullView
  generalize DesiredView.start ∅ false = view at start
  induction (source.rules.sourceFiles source.tree).files generalizing view with
  | nil => exact start
  | cons entry rest ih =>
    rw [List.foldl_cons]
    apply ih
    unfold fullTurn
    cases ((Node.dir source.tree).readPath entry.1).bind (source.parse entry.2) with
    | none => exact ⟨start.entries, start.removes⟩
    | some slice => exact start.insert _ slice

theorem entries_fullView (rel : String) :
    (fullView source).entries[rel]? = (source.sliceAt rel).map sliceHash :=
  (filed_fullView source).entries rel

theorem stages_fullView (source : Source) (current : Manifest) :
    Stages current (fullView source) where
  kept rel hash _ := by simp [(filed_fullView source).removes]
  taken rel slice staged := .inr (by rw [(filed_fullView source).entries, staged]; rfl)
  carried rel staged := .inl (by rw [(filed_fullView source).entries, staged]; rfl)

/-! ## The incremental walk -/

/-- What becomes of a path that git reports as added or modified. -/
inductive Fate where
  | keep
  | drop
  | take (slice : Graph.CodeGraph)

def Fate.slice : Fate → Option Graph.CodeGraph
  | take slice => some slice
  | keep => none
  | drop => none

/-- The entry that a path is left with. -/
def Fate.entry : Fate → Option ContentHash → Option ContentHash
  | keep, held => held
  | drop, _ => none
  | take slice, _ => some (sliceHash slice)

/-- `none` where the file is left as it was indexed before: a worker failed on it. -/
def Source.parsed (source : Source) (language : Language) (content : String) : Fate :=
  match source.parse language content with
  | some slice => .take slice
  | none => .keep

/-- What a turn of the loop decides on. -/
def Source.fate (source : Source) (rel : String) : Fate :=
  if source.rules.filter.isIndexable rel then
    match (extension rel).bind Language.fromExtension with
    | none => .keep
    | some language =>
      match (Node.dir source.tree).read rel with
      | none => .drop
      | some content => source.parsed language content
  else .drop

/-- The rules no longer admit the path. -/
def Source.stale (source : Source) (rel : String) : Bool :=
  !source.rules.filter.isIndexable rel || source.rules.ignores rel

/-- The same entries and staging; the counts are their own. -/
def SameContent (view view' : DesiredView) : Prop :=
  view'.entries = view.entries ∧ view'.staging = view.staging

/-- What a turn does to entries and staging. -/
inductive Turned (source : Source) (view : DesiredView) (rel : String) (view' : DesiredView) : Prop
  | keep (decided : source.fate rel = .keep) (same : SameContent view view')
  | drop (decided : source.fate rel = .drop) (same : SameContent (view.dropPath rel) view')
  | take (slice : Graph.CodeGraph) (decided : source.fate rel = .take slice)
      (same : SameContent (view.insert rel slice (sliceHash slice)) view')

theorem turned (source : Source) (view : DesiredView) (rel : String) :
    Turned source view rel (changeTurn source view rel) := by
  have decided : source.fate rel = source.fate rel := rfl
  unfold changeTurn
  conv at decided => rhs; unfold Source.fate
  split
  next indexable =>
    rw [if_pos indexable] at decided
    cases named : (extension rel).bind Language.fromExtension with
    | none =>
      rw [named] at decided
      exact .keep decided ⟨rfl, rfl⟩
    | some language =>
      rw [named] at decided
      dsimp only at decided ⊢
      cases held : (Node.dir source.tree).read rel with
      | none =>
        rw [held] at decided
        exact .drop decided ⟨rfl, rfl⟩
      | some content =>
        rw [held] at decided
        dsimp only [Source.parsed] at decided ⊢
        cases parsed : source.parse language content with
        | none =>
          rw [parsed] at decided
          exact .keep decided ⟨rfl, rfl⟩
        | some slice =>
          rw [parsed] at decided
          exact .take slice decided ⟨rfl, rfl⟩
  next declined =>
    rw [if_neg declined] at decided
    exact .drop decided ⟨rfl, rfl⟩

/-- The entry that the filter leaves a path that is carried over. -/
def Source.carried (source : Source) (current : Manifest) (rel : String) : Option ContentHash :=
  if source.stale rel then none else current.entries[rel]?

/-- The view once the paths of `seen` had their turn. -/
structure Drafted (source : Source) (current : Manifest) (seen : List String)
    (view : DesiredView) : Prop where
  entries : ∀ rel, view.entries[rel]? =
    if rel ∈ seen then (source.fate rel).entry (source.carried current rel)
    else source.carried current rel
  slices : ∀ rel, view.staging.slice rel = if rel ∈ seen then (source.fate rel).slice else none
  removes : ∀ rel ∈ view.staging.removes,
    source.stale rel = true ∨ rel ∈ seen ∧ source.fate rel = .drop

omit [Blake3] [SliceJson] in
@[simp] theorem slice_dropPath (view : DesiredView) (rel path : String) :
    (view.dropPath rel).staging.slice path = view.staging.slice path := by
  unfold DesiredView.dropPath
  split <;> rfl

omit [Blake3] [SliceJson] in
theorem entries_dropPath (view : DesiredView) (rel path : String) :
    (view.dropPath rel).entries[path]? = if rel = path then none else view.entries[path]? := by
  unfold DesiredView.dropPath
  split
  next held => simp [DesiredView.remove, Std.ExtTreeMap.getElem?_erase]
  next absent =>
    split
    next here =>
      subst here
      rw [Std.ExtTreeMap.contains_eq_isSome_getElem?] at absent
      simpa using absent
    next => rfl

omit [Blake3] [SliceJson] in
theorem removes_dropPath (view : DesiredView) (rel path : String) :
    path ∈ (view.dropPath rel).staging.removes ↔
      path ∈ view.staging.removes ∨ path = rel ∧ view.entries[rel]? ≠ none := by
  unfold DesiredView.dropPath
  rw [Std.ExtTreeMap.contains_eq_isSome_getElem?]
  cases view.entries[rel]? with
  | none => simp
  | some hash => simp [DesiredView.remove]

theorem Drafted.turn {current : Manifest} {seen : List String} {view : DesiredView}
    (drafted : Drafted source current seen view) (rel : String) :
    Drafted source current (seen ++ [rel]) (changeTurn source view rel) := by
  generalize after : changeTurn source view rel = view'
  have done := after ▸ turned source view rel
  cases done with
  | keep decided same =>
    obtain ⟨entries, staging⟩ := same
    refine ⟨fun path => ?_, fun path => ?_, fun path member => ?_⟩
    · rw [entries, drafted.entries]
      simp only [List.mem_append, List.mem_singleton]
      by_cases here : path = rel
      · subst here
        simp [decided, Fate.entry]
      · simp [here]
    · rw [staging, drafted.slices]
      simp only [List.mem_append, List.mem_singleton]
      by_cases here : path = rel
      · subst here
        simp [decided, Fate.slice]
      · simp [here]
    · rw [staging] at member
      exact (drafted.removes path member).imp_right fun ⟨turn, fate⟩ =>
        ⟨List.mem_append_left _ turn, fate⟩
  | drop decided same =>
    obtain ⟨entries, staging⟩ := same
    refine ⟨fun path => ?_, fun path => ?_, fun path member => ?_⟩
    · rw [entries, entries_dropPath, drafted.entries]
      simp only [List.mem_append, List.mem_singleton]
      by_cases here : path = rel
      · subst here
        simp [decided, Fate.entry]
      · simp [here, Ne.symm here]
    · rw [staging, slice_dropPath, drafted.slices]
      simp only [List.mem_append, List.mem_singleton]
      by_cases here : path = rel
      · subst here
        simp [decided, Fate.slice]
      · simp [here]
    · rw [staging, removes_dropPath] at member
      rcases member with before | ⟨rfl, -⟩
      · exact (drafted.removes path before).imp_right fun ⟨turn, fate⟩ =>
          ⟨List.mem_append_left _ turn, fate⟩
      · exact .inr ⟨by simp, decided⟩
  | take slice decided same =>
    obtain ⟨entries, staging⟩ := same
    refine ⟨fun path => ?_, fun path => ?_, fun path member => ?_⟩
    · simp only [entries, DesiredView.insert, Std.ExtTreeMap.getElem?_insert,
        Std.LawfulEqCmp.compare_eq_iff_eq, drafted.entries, List.mem_append, List.mem_singleton]
      by_cases here : path = rel
      · subst here
        simp [decided, Fate.entry]
      · simp [here, Ne.symm here]
    · simp only [staging, DesiredView.insert, GraphStaging.slice_append, drafted.slices,
        List.mem_append, List.mem_singleton]
      by_cases here : path = rel
      · subst here
        simp [decided, Fate.slice]
      · simp [here, Ne.symm here]
    · rw [staging] at member
      exact (drafted.removes path member).imp_right fun ⟨turn, fate⟩ =>
        ⟨List.mem_append_left _ turn, fate⟩

theorem Drafted.turns {current : Manifest} {seen : List String} {view : DesiredView}
    (drafted : Drafted source current seen view) (paths : List String) :
    Drafted source current (seen ++ paths) (paths.foldl (changeTurn source) view) := by
  induction paths generalizing seen view with
  | nil => rwa [List.append_nil]
  | cons rel rest ih =>
    have later := ih (drafted.turn rel)
    rwa [List.append_assoc, List.singleton_append] at later

omit [Blake3] [SliceJson] in
theorem mem_staleEntries {paths : List String} {rel : String} :
    rel ∈ source.rules.staleEntries paths ↔ rel ∈ paths ∧ source.stale rel = true := by
  rw [Rules.staleEntries, List.mem_filter, Source.stale]

omit [Blake3] [SliceJson] in
/-- The filter takes the paths out one by one. -/
theorem foldl_remove (stale : List String) (view : DesiredView) (path : String) :
    let pruned := stale.foldl (fun view rel => (view.remove rel).ignoreFile) view
    pruned.entries[path]? = (if path ∈ stale then none else view.entries[path]?) ∧
      pruned.staging = ⟨view.staging.inserts, view.staging.removes ++ stale⟩ := by
  induction stale generalizing view with
  | nil => simp
  | cons rel rest ih =>
    obtain ⟨entries, staging⟩ := ih (view.remove rel).ignoreFile
    dsimp only [List.foldl_cons] at entries staging ⊢
    rw [entries, staging]
    simp only [DesiredView.ignoreFile, DesiredView.remove, Std.ExtTreeMap.getElem?_erase,
      Std.LawfulEqCmp.compare_eq_iff_eq, List.mem_cons, List.append_assoc, List.singleton_append,
      and_true]
    by_cases here : path = rel
    · simp [here]
    · simp [here, Ne.symm here]

theorem drafted_pruneStale (source : Source) (current : Manifest) :
    Drafted source current [] (pruneStale source current) where
  entries rel := by
    rw [if_neg List.not_mem_nil, pruneStale, (foldl_remove _ _ rel).1]
    simp only [mem_staleEntries, Std.ExtTreeMap.mem_keys, Source.carried, DesiredView.start,
      Std.ExtTreeMap.mem_iff_isSome_getElem?]
    cases current.entries[rel]? <;> simp
  slices rel := by
    rw [if_neg List.not_mem_nil, pruneStale, (foldl_remove _ _ rel).2]
    rfl
  removes rel member := by
    rw [pruneStale, (foldl_remove _ _ rel).2] at member
    exact .inl (mem_staleEntries.mp (by simpa [DesiredView.start] using member)).2

/-- The deleted paths go last. -/
structure Deleted (deleted : List String) (view view' : DesiredView) : Prop where
  entries : ∀ path, view'.entries[path]? = if path ∈ deleted then none else view.entries[path]?
  slices : ∀ path, view'.staging.slice path = view.staging.slice path
  removes : ∀ path, path ∈ view'.staging.removes ↔
    path ∈ view.staging.removes ∨ path ∈ deleted ∧ view.entries[path]? ≠ none

omit [Blake3] [SliceJson] in
theorem deleted_foldl (deleted : List String) (view : DesiredView) :
    Deleted deleted view (deleted.foldl DesiredView.dropPath view) := by
  induction deleted generalizing view with
  | nil => exact ⟨fun path => by simp, fun path => rfl, fun path => by simp⟩
  | cons rel rest ih =>
    obtain ⟨entries, slices, removes⟩ := ih (view.dropPath rel)
    refine ⟨fun path => ?_, fun path => ?_, fun path => ?_⟩
    · rw [List.foldl_cons, entries, entries_dropPath]
      simp only [List.mem_cons]
      by_cases here : path = rel
      · simp [here]
      · simp [here, Ne.symm here]
    · rw [List.foldl_cons, slices, slice_dropPath]
    · rw [List.foldl_cons, removes, removes_dropPath, entries_dropPath]
      simp only [List.mem_cons]
      by_cases here : path = rel
      · subst here
        simp
      · simp [here, Ne.symm here]

/-- The incremental walk, path by path. -/
theorem exists_drafted (source : Source) (current : Manifest) (changed : ChangedPaths) :
    ∃ view, Drafted source current (changed.added ++ changed.modified) view ∧
      Deleted changed.deleted view (incrementalView source current changed) := by
  refine ⟨_, ?_, deleted_foldl changed.deleted _⟩
  simpa using (drafted_pruneStale source current).turns (changed.added ++ changed.modified)

omit [Blake3] [SliceJson] in
theorem indexable_of_take {rel : String} {slice : Graph.CodeGraph}
    (decided : source.fate rel = .take slice) : source.rules.filter.isIndexable rel = true := by
  unfold Source.fate at decided
  split at decided
  next indexable => exact indexable
  next => cases decided

/-- No path that git reports is ignored: the comment in the source says as much of `git2`. -/
def ChangedPaths.Unignored (changed : ChangedPaths) (source : Source) : Prop :=
  ∀ rel ∈ changed.added ++ changed.modified, source.rules.ignores rel = false

omit [Blake3] [SliceJson] in
theorem ChangedPaths.Unignored.stale {changed : ChangedPaths}
    (unignored : changed.Unignored source) {rel : String}
    (reported : rel ∈ changed.added ++ changed.modified) {slice : Graph.CodeGraph}
    (decided : source.fate rel = .take slice) : source.stale rel = false := by
  rw [Source.stale, indexable_of_take decided, unignored rel reported]
  rfl

theorem stages_incrementalView {current : Manifest} {changed : ChangedPaths}
    (unignored : changed.Unignored source) :
    Stages current (incrementalView source current changed) := by
  obtain ⟨view, drafted, deleted⟩ := exists_drafted source current changed
  constructor
  · intro rel hash held gone
    rw [deleted.entries] at held
    split at held
    next => cases held
    next kept =>
      rcases (deleted.removes rel).mp gone with before | ⟨there, -⟩
      · rw [drafted.entries] at held
        rcases drafted.removes rel before with stale | ⟨turn, fate⟩
        · split at held
          next turn =>
            cases fate : source.fate rel with
            | keep => simp [fate, Fate.entry, Source.carried, stale] at held
            | drop => simp [fate, Fate.entry] at held
            | take slice =>
              have fresh := unignored.stale turn fate
              exact absurd (fresh.symm.trans stale) (by decide)
          next => simp [Source.carried, stale] at held
        · simp [turn, fate, Fate.entry] at held
      · exact kept there
  · intro rel slice staged
    rw [deleted.slices, drafted.slices] at staged
    split at staged
    next turn =>
      cases fate : source.fate rel with
      | keep => simp [fate, Fate.slice] at staged
      | drop => simp [fate, Fate.slice] at staged
      | take own =>
        simp only [fate, Fate.slice, Option.some.injEq] at staged
        subst staged
        rw [deleted.removes, deleted.entries, drafted.entries, if_pos turn, fate]
        by_cases gone : rel ∈ changed.deleted
        · exact .inl (.inr ⟨gone, by simp [Fate.entry]⟩)
        · exact .inr (by rw [if_neg gone]; rfl)
    next => cases staged
  · intro rel staged
    rw [deleted.slices, drafted.slices] at staged
    rw [deleted.entries, drafted.entries]
    split
    · exact .inl rfl
    · have carried : source.carried current rel = none ∨
          source.carried current rel = current.entries[rel]? := by
        unfold Source.carried
        split
        · exact .inl rfl
        · exact .inr rfl
      split
      next turn =>
        cases fate : source.fate rel with
        | keep => exact carried
        | drop => exact .inl rfl
        | take slice => simp [turn, fate, Fate.slice] at staged
      next => exact carried

/-- The changed paths of an incremental run; none where the run walks the tree. -/
def Source.reported (source : Source) (files : ViewFiles) : Option ChangedPaths :=
  (files.recordedBase source).bind source.changedPaths

/-- Whichever driver the files select, its entries and its staging agree. -/
theorem stages_builtView {source : Source} {files : ViewFiles} {current : Manifest}
    (unignored : ∀ changed ∈ source.reported files, changed.Unignored source) :
    Stages current (builtView source files current) := by
  unfold builtView
  unfold Source.reported at unignored
  cases reported : (files.recordedBase source).bind source.changedPaths with
  | none => exact stages_fullView source current
  | some changed => exact stages_incrementalView (unignored changed (by simp [reported]))

end Drivers

end Gonzalo.Index
