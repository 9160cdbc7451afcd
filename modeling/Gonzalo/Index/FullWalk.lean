import Gonzalo.Index.Incremental

/-!
# When the incremental driver builds what a full walk would

The incremental driver starts from the manifest of an earlier source. It ends with the view
that a full walk of the new source builds if git reports every path whose slice differs, and
if the reported paths are ones on which the two drivers read the same.
-/

set_option autoImplicit false

namespace Gonzalo.Index
open Gonzalo.Core Gonzalo.Graph Gonzalo.Lib

/-- What a run reads: directories list plain names, each once, and ignoring goes downwards. -/
structure Source.Plain (source : Source) : Prop where
  wellFormed : source.tree.WellFormed
  inherits : source.rules.Inherits

/-! ## The slices of a full walk -/

theorem relative_splitAt {rel : String} (plain : ∀ name ∈ splitAt rel '/', PlainName name) :
    relative (splitAt rel '/') = rel := by
  apply String.toList_injective
  rw [toList_relative plain, splitAt, List.map_map]
  have same : (String.toList ∘ String.ofList) = id := by
    funext chars
    exact String.toList_ofList
  rw [same, List.map_id, List.intercalate_splitOn]

section Slices

variable [Blake3] [SliceJson] {source : Source}

omit [Blake3] [SliceJson] in
theorem Source.Plain.of_listed (plain : source.Plain) {path : List String} {language : Language}
    (listed : (path, language) ∈ (source.rules.sourceFiles source.tree).files) :
    (∀ name ∈ path, PlainName name) ∧ path ≠ [] := by
  obtain ⟨⟨text, leads⟩, -, -⟩ := (mem_sourceFiles plain.wellFormed plain.inherits).mp listed
  refine ⟨@Node.plain_of_find (.dir source.tree) _ _ plain.wellFormed leads, ?_⟩
  rintro rfl
  simp [Node.find] at leads

theorem mem_inserts {rel : String} {slice : Graph.CodeGraph} :
    (rel, slice) ∈ (fullView source).staging.inserts ↔
      ∃ path language, (path, language) ∈ (source.rules.sourceFiles source.tree).files ∧
        relative path = rel ∧
        ((Node.dir source.tree).readPath path).bind (source.parse language) = some slice := by
  unfold fullView
  induction (source.rules.sourceFiles source.tree).files using List.reverseRecOn with
  | nil => simp [DesiredView.start]
  | append_singleton entries entry ih =>
    obtain ⟨path, language⟩ := entry
    rw [List.foldl_append, List.foldl_cons, List.foldl_nil, fullTurn]
    cases parsed : ((Node.dir source.tree).readPath path).bind (source.parse language) with
    | none =>
      dsimp only [DesiredView.skip]
      rw [ih]
      constructor
      · rintro ⟨path', language', listed, rest⟩
        exact ⟨path', language', List.mem_append_left _ listed, rest⟩
      · rintro ⟨path', language', listed, named, held⟩
        rcases List.mem_append.mp listed with before | own
        · exact ⟨path', language', before, named, held⟩
        · cases List.mem_singleton.mp own
          exact absurd (parsed.symm.trans held) (by simp)
    | some own =>
      dsimp only [DesiredView.insert]
      rw [List.mem_append, ih, List.mem_singleton, Prod.mk.injEq]
      constructor
      · rintro (⟨path', language', listed, rest⟩ | ⟨rfl, rfl⟩)
        · exact ⟨path', language', List.mem_append_left _ listed, rest⟩
        · exact ⟨path, language, by simp, rfl, parsed⟩
      · rintro ⟨path', language', listed, named, held⟩
        rcases List.mem_append.mp listed with before | here
        · exact .inl ⟨path', language', before, named, held⟩
        · cases List.mem_singleton.mp here
          exact .inr ⟨named.symm, Option.some.inj (held.symm.trans parsed)⟩

omit [Blake3] [SliceJson] in
/-- A slice that is staged was inserted. -/
theorem GraphStaging.mem_of_slice {staging : GraphStaging} {rel : String}
    {slice : Graph.CodeGraph} (staged : staging.slice rel = some slice) :
    (rel, slice) ∈ staging.inserts := by
  obtain ⟨⟨path, own⟩, last, rfl⟩ := Option.map_eq_some_iff.mp staged
  have member := List.mem_filter.mp (List.mem_of_getLast? last)
  obtain rfl : path = rel := by simpa using member.2
  exact member.1

omit [Blake3] [SliceJson] in
theorem GraphStaging.exists_slice {staging : GraphStaging} {rel : String}
    {slice : Graph.CodeGraph} (inserted : (rel, slice) ∈ staging.inserts) :
    ∃ own, staging.slice rel = some own := by
  have kept : (rel, slice) ∈ staging.inserts.filter fun insert => insert.1 = rel :=
    List.mem_filter.mpr ⟨inserted, by simp⟩
  obtain ⟨last, ends⟩ := Option.isSome_iff_exists.mp
    (List.getLast?_isSome.mpr (List.ne_nil_of_mem kept))
  exact ⟨last.2, by rw [GraphStaging.slice, ends]; rfl⟩

/-- The full walk has a slice where it lists a file that is read and parsed. -/
theorem sliceAt_eq_some (plain : source.Plain) {rel : String} {slice : Graph.CodeGraph} :
    source.sliceAt rel = some slice ↔
      ∃ language content,
        (splitAt rel '/', language) ∈ (source.rules.sourceFiles source.tree).files ∧
        relative (splitAt rel '/') = rel ∧ (Node.dir source.tree).read rel = some content ∧
        source.parse language content = some slice := by
  have staged : ∀ own, (rel, own) ∈ (fullView source).staging.inserts ↔
      ∃ language content,
        (splitAt rel '/', language) ∈ (source.rules.sourceFiles source.tree).files ∧
        relative (splitAt rel '/') = rel ∧ (Node.dir source.tree).read rel = some content ∧
        source.parse language content = some own := by
    intro own
    rw [mem_inserts]
    constructor
    · rintro ⟨path, language, listed, rfl, held⟩
      obtain ⟨names, nonempty⟩ := plain.of_listed listed
      obtain ⟨content, read, parsed⟩ := Option.bind_eq_some_iff.mp held
      have own_ := splitAt_relative names nonempty
      refine ⟨language, content, own_.symm ▸ listed, by rw [own_], ?_, parsed⟩
      rw [Node.read, own_]
      exact read
    · rintro ⟨language, content, listed, named, read, parsed⟩
      exact ⟨_, language, listed, named, Option.bind_eq_some_iff.mpr ⟨content, read, parsed⟩⟩
  constructor
  · intro held
    exact (staged slice).mp (GraphStaging.mem_of_slice held)
  · rintro ⟨language, content, listed, named, read, parsed⟩
    obtain ⟨own, held⟩ := GraphStaging.exists_slice
      ((staged slice).mpr ⟨language, content, listed, named, read, parsed⟩)
    obtain ⟨language', content', listed', -, read', parsed'⟩ :=
      (staged own).mp (GraphStaging.mem_of_slice held)
    obtain ⟨-, takes, -⟩ := (mem_sourceFiles plain.wellFormed plain.inherits).mp listed
    obtain ⟨-, takes', -⟩ := (mem_sourceFiles plain.wellFormed plain.inherits).mp listed'
    cases Option.some.inj (takes.2.symm.trans takes'.2)
    cases read.symm.trans read'
    exact held.trans (parsed'.symm.trans parsed)

/-- A path with a slice is admitted, and names a language. -/
theorem named_of_sliceAt (plain : source.Plain) {rel : String} {slice : Graph.CodeGraph}
    (held : source.sliceAt rel = some slice) :
    source.stale rel = false ∧
      ∃ language, (extension rel).bind Language.fromExtension = some language := by
  obtain ⟨language, content, listed, named, -, -⟩ := (sliceAt_eq_some plain).mp held
  obtain ⟨names, nonempty⟩ := plain.of_listed listed
  obtain ⟨-, ⟨admitted, spoken⟩, -⟩ := (mem_sourceFiles plain.wellFormed plain.inherits).mp listed
  rw [named, Rules.admits, Bool.and_eq_true, Bool.not_eq_true'] at admitted
  constructor
  · rw [Source.stale, admitted.1, admitted.2]
    rfl
  · exact ⟨language, by rw [← named, extension_relative names nonempty, spoken]⟩

/-! ## The drivers side by side -/

/-- The drivers read the same at the path: it is no symbolic link and not ignored, what is
read of it is parsed, and no directory above it is pruned for its name alone. -/
structure Source.Regular (source : Source) (rel : String) : Prop where
  unignored : source.rules.ignores rel = false
  unlinked : ∀ text, (Node.dir source.tree).find (splitAt rel '/') = some (.other text) →
    text = none
  parsed : ∀ language content, (Node.dir source.tree).read rel = some content →
    ∃ slice, source.parse language content = some slice
  above : ∀ front back, splitAt rel '/' = front ++ back → front ≠ [] → back ≠ [] →
    (∀ name ∈ front.getLast?, isGenerated name = false) ∨
      source.rules.filter.shouldDescend (relative front) = true

/-- The incremental driver takes the slice that the full walk has. -/
theorem sliceAt_eq_fate (plain : source.Plain) {rel : String} (regular : source.Regular rel) :
    source.sliceAt rel = (source.fate rel).slice := by
  cases fate : source.fate rel with
  | take slice =>
    rw [Fate.slice, sliceAt_eq_some plain]
    have indexable := indexable_of_take fate
    rw [Source.fate, if_pos indexable] at fate
    cases named : (extension rel).bind Language.fromExtension with
    | none => simp [named] at fate
    | some language =>
      cases read : (Node.dir source.tree).read rel with
      | none => simp [named, read] at fate
      | some content =>
        obtain ⟨own, parsed⟩ := regular.parsed language content read
        simp only [named, read, Source.parsed, parsed, Fate.take.injEq] at fate
        subst fate
        have file : ∃ text, (Node.dir source.tree).find (splitAt rel '/') = some (.file text) := by
          have read' := read
          rw [Node.read, Node.readPath] at read'
          split at read'
          next text found => exact ⟨text, found⟩
          next text found => exact absurd (regular.unlinked text found) (by simp [read'])
          next => cases read'
        obtain ⟨text, leads⟩ := file
        have names := @Node.plain_of_find (.dir source.tree) _ _ plain.wellFormed leads
        have whole := relative_splitAt names
        have nonempty : splitAt rel '/' ≠ [] := by
          intro empty
          rw [empty] at leads
          simp [Node.find] at leads
        have spoken : ((splitAt rel '/').getLast?.bind extensionOfName).bind
            Language.fromExtension = some language := by
          rw [← extension_relative names nonempty, whole, named]
        refine ⟨language, content, ?_, whole, rfl, parsed⟩
        refine (mem_sourceFiles plain.wellFormed plain.inherits).mpr
          ⟨⟨text, leads⟩, ⟨?_, spoken⟩, regular.above⟩
        rw [whole, Rules.admits, indexable, regular.unignored]
        rfl
  | keep =>
    cases held : source.sliceAt rel with
    | none => rfl
    | some slice =>
      obtain ⟨language, content, listed, -, read, parsed⟩ := (sliceAt_eq_some plain).mp held
      obtain ⟨fresh, spoken, named⟩ := named_of_sliceAt plain held
      rw [Source.stale, Bool.or_eq_false_iff, Bool.not_eq_false'] at fresh
      obtain ⟨own, parsed'⟩ := regular.parsed spoken content read
      simp [Source.fate, fresh.1, named, read, Source.parsed, parsed'] at fate
  | drop =>
    cases held : source.sliceAt rel with
    | none => rfl
    | some slice =>
      obtain ⟨language, content, listed, -, read, parsed⟩ := (sliceAt_eq_some plain).mp held
      obtain ⟨fresh, spoken, named⟩ := named_of_sliceAt plain held
      rw [Source.stale, Bool.or_eq_false_iff, Bool.not_eq_false'] at fresh
      obtain ⟨own, parsed'⟩ := regular.parsed spoken content read
      simp [Source.fate, fresh.1, named, read, Source.parsed, parsed'] at fate

omit [Blake3] [SliceJson] in
/-- A regular path is kept only where it names no language. -/
theorem unnamed_of_keep {rel : String} (regular : source.Regular rel)
    (fate : source.fate rel = .keep) :
    (extension rel).bind Language.fromExtension = none := by
  unfold Source.fate at fate
  split at fate
  · cases named : (extension rel).bind Language.fromExtension with
    | none => rfl
    | some language =>
      cases read : (Node.dir source.tree).read rel with
      | none => simp [named, read] at fate
      | some content =>
        obtain ⟨own, parsed⟩ := regular.parsed language content read
        simp [named, read, Source.parsed, parsed] at fate
  · cases fate

/-- What git reports of the new source covers what differs from the earlier one. -/
structure Covers (before after : Source) (changed : ChangedPaths) : Prop where
  unreported : ∀ rel, rel ∉ changed.added ++ changed.modified → rel ∉ changed.deleted →
    after.stale rel = false → after.sliceAt rel = before.sliceAt rel
  deleted : ∀ rel ∈ changed.deleted, after.sliceAt rel = none
  reported : ∀ rel ∈ changed.added ++ changed.modified, after.Regular rel

section Covered

variable {before after : Source} {changed : ChangedPaths} {current : Manifest}

/-- Over a manifest of the earlier source, the incremental driver builds the entries of a
full walk of the new one. -/
theorem entries_incrementalView (plainBefore : before.Plain) (plainAfter : after.Plain)
    (covers : Covers before after changed)
    (indexed : ∀ rel, current.entries[rel]? = (before.sliceAt rel).map sliceHash) (rel : String) :
    (incrementalView after current changed).entries[rel]? = (after.sliceAt rel).map sliceHash := by
  obtain ⟨view, drafted, deleted⟩ := exists_drafted after current changed
  rw [deleted.entries, drafted.entries]
  split
  next gone => rw [covers.deleted rel gone]; rfl
  next present =>
    split
    next turn =>
      have regular := covers.reported rel turn
      rw [sliceAt_eq_fate plainAfter regular]
      cases fate : after.fate rel with
      | take slice => rfl
      | drop => rfl
      | keep =>
        have unnamed := unnamed_of_keep regular fate
        have never : before.sliceAt rel = none := by
          cases held : before.sliceAt rel with
          | none => rfl
          | some slice =>
            obtain ⟨-, language, named⟩ := named_of_sliceAt plainBefore held
            exact absurd (unnamed.symm.trans named) (by simp)
        rw [Fate.entry, Source.carried, indexed, never]
        split <;> rfl
    next unreported =>
      rw [Source.carried]
      cases stale : after.stale rel with
      | true =>
        cases held : after.sliceAt rel with
        | none => rfl
        | some slice =>
          exact absurd (stale.symm.trans (named_of_sliceAt plainAfter held).1) (by decide)
      | false =>
        rw [if_neg (by decide), indexed, covers.unreported rel unreported present stale]

/-- The rows of the earlier source become those of a full walk of the new one. -/
theorem rows_incrementalView (plainBefore : before.Plain) (plainAfter : after.Plain)
    (covers : Covers before after changed)
    (indexed : ∀ rel, current.entries[rel]? = (before.sliceAt rel).map sliceHash) (rel : String) :
    ((incrementalView after current changed).staged current).rows rel (before.sliceAt rel) =
      after.sliceAt rel := by
  have unignored : changed.Unignored after := fun rel turn => (covers.reported rel turn).unignored
  have stages : Stages current _ := stages_incrementalView unignored
  have entry := entries_incrementalView plainBefore plainAfter covers indexed rel
  have hashes := stages.rows (indexed rel).symm
  rw [entry] at hashes
  cases held : after.sliceAt rel with
  | none => simpa [held] using hashes
  | some slice =>
    rw [held] at entry
    have kept := stages.kept rel _ entry
    obtain ⟨view, drafted, deleted⟩ := exists_drafted after current changed
    have staged : ((incrementalView after current changed).staged current).slice rel =
        view.staging.slice rel := deleted.slices rel
    have present : rel ∉ ((incrementalView after current changed).staged current).removes := by
      rw [DesiredView.staged, List.mem_append, mem_deleted, entry]
      simp [kept]
    rw [GraphStaging.rows, if_neg present, staged, drafted.slices]
    split
    next turn =>
      rw [← sliceAt_eq_fate plainAfter (covers.reported rel turn), held]
      rfl
    next unreported =>
      have there : rel ∉ changed.deleted := by
        intro gone
        exact absurd ((covers.deleted rel gone).symm.trans held) (by simp)
      have same := covers.unreported rel unreported there (named_of_sliceAt plainAfter held).1
      rw [Option.none_or, ← same, held]

/-- The rows of any view become those of a full walk, but for paths that the manifest does
not have. -/
theorem rows_fullView (source : Source) {held : Option Graph.CodeGraph} {rel : String}
    (tracked : held.map sliceHash = current.entries[rel]?) :
    ((fullView source).staged current).rows rel held = source.sliceAt rel := by
  have hashes := (stages_fullView source current).rows tracked
  rw [entries_fullView] at hashes
  cases slice : source.sliceAt rel with
  | none => simpa [slice] using hashes
  | some own =>
    have entry : (fullView source).entries[rel]? = some (sliceHash own) := by
      rw [entries_fullView, slice]
      rfl
    have present : rel ∉ ((fullView source).staged current).removes := by
      rw [DesiredView.staged, List.mem_append, mem_deleted, entry]
      simp [(filed_fullView source).removes]
    have staged : ((fullView source).staged current).slice rel = source.sliceAt rel := rfl
    rw [GraphStaging.rows, if_neg present, staged, slice]
    rfl

end Covered

end Slices

end Gonzalo.Index
