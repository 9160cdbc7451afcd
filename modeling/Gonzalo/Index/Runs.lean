import Gonzalo.Graph.SqliteAgreement
import Gonzalo.Index.Progress

/-!
# A view over many runs

A view is indexed again and again, by whichever driver its files select, while others use
the store. As long as the runs that fail do so before they commit, its database holds the
slices that the manifest names, so that the daemon answers from either; and if git covers
what changed from run to run, both are what one full walk of the last source would have
left.
-/

set_option autoImplicit false

namespace Gonzalo.Index
open Gonzalo.Core Gonzalo.Graph Gonzalo.Lib Gonzalo.Server

section Runs

variable [Blake3] [SliceJson] [Serde] [ManifestJson] {key : RecordKey} {repo view : String}

/-- What a run that succeeds has done. -/
theorem ran (roundTrip : ManifestsRoundTrip) {source : Source} {files files' : ViewFiles}
    {w w' : Backend} {summary : IndexSummary}
    (run : Program.Runs (Beside (Service.manifestKey repo view)) w (index source repo view files)
      w' (.ok (summary, files'))) :
    ∃ current, RanTo source (Service.manifestKey repo view) files w w' files' current :=
  (index_spec roundTrip source repo view files w).runs run summary files' rfl

/-! ## The database holds what the manifest names -/

/-- What may happen to a view: others leave its manifest alone, and a run commits what it
built or leaves everything as it was. -/
inductive Happens (repo view : String) : Backend × ViewFiles → Backend × ViewFiles → Prop
  | others {w w' : Backend} {files : ViewFiles}
      (others : Others (Service.manifestKey repo view) w w') :
      Happens repo view (w, files) (w', files)
  | failed {source : Source} {w w' : Backend} {files : ViewFiles} {e : IndexError}
      (run : Program.Runs (Among (Service.manifestKey repo view)) w
        (index source repo view files) w' (.error e))
      (uncommitted : Aside (Service.manifestKey repo view) w w') :
      Happens repo view (w, files) (w', files)
  | indexed {source : Source} {w w' : Backend} {files files' : ViewFiles} {summary : IndexSummary}
      (unignored : ∀ changed ∈ source.reported files, changed.Unignored source)
      (run : Program.Runs (Among (Service.manifestKey repo view)) w
        (index source repo view files) w' (.ok (summary, files'))) :
      Happens repo view (w, files) (w', files')

/-- The manifest of the view is tracked by its database. -/
def Tracked (repo view : String) (x : Backend × ViewFiles) : Prop :=
  ∃ m, ManifestAt (Service.manifestKey repo view) x.1 m ∧ Tracks m x.2.graph

theorem Tracked.step (roundTrip : ManifestsRoundTrip) {x y : Backend × ViewFiles}
    (tracked : Tracked repo view x) (happens : Happens repo view x y) : Tracked repo view y := by
  obtain ⟨m, held, tracks⟩ := tracked
  cases happens with
  | others others => exact ⟨m, held.aside others.aside, tracks⟩
  | failed run uncommitted => exact ⟨m, held.aside uncommitted, tracks⟩
  | @indexed source w w' files files' summary unignored run =>
    have beside := run.mono fun _ _ _ _ => Among.beside
    obtain ⟨current, found, committed, -, advanced⟩ := ran roundTrip beside
    obtain rfl : m = current := Except.ok.inj (held.symm.trans found)
    refine ⟨_, committed, ?_⟩
    rw [advanced]
    exact (stages_builtView unignored).tracks tracks

omit [Serde] [ManifestJson] in
theorem tracks_new : Tracks ⟨∅⟩ ViewFiles.new.graph :=
  ⟨.new, filing_run [], fun path => by simp [InMemoryGraphStore.new]⟩

theorem tracked_run (roundTrip : ManifestsRoundTrip) {w₀ : Backend}
    (absent : w₀.store.get (Service.manifestKey repo view) = none) {x : Backend × ViewFiles}
    (run : Relation.ReflTransGen (Happens repo view) (w₀, .new) x) : Tracked repo view x := by
  induction run with
  | refl =>
    refine ⟨⟨∅⟩, ?_, tracks_new⟩
    unfold ManifestAt
    rw [absent]
    rfl
  | tail _ happens ih => exact ih.step roundTrip happens

/-- Neither the runs nor the others file a blob under another hash. -/
theorem addressed_run {x y : Backend × ViewFiles}
    (run : Relation.ReflTransGen (Happens repo view) x y) (addressed : x.1.Addressed) :
    y.1.Addressed := by
  have called : ∀ (w : Backend) (req : BackendReq) (answer : req.Ans) (w' : Backend),
      w.Addressed → Among (Service.manifestKey repo view) w req answer w' → w'.Addressed :=
    fun _ _ _ _ addressed among => among.addressed addressed
  induction run with
  | refl => exact addressed
  | tail _ happens ih =>
    cases happens with
    | others others => exact others.addressed ih
    | failed run _ => exact run.cut.invariant called ih
    | indexed _ run => exact run.cut.invariant called ih

/-! ## Answering from the slices -/

/-- The service over in-memory graphs, which is what it assembles. -/
@[reducible] def memGraphs : Server.CodeGraph where
  Graph := InMemoryGraphStore
  Slice := Graph.CodeGraph
  Answer := GraphStore
  empty := .new
  insert := .insert
  fromSliceBytes := SliceJson.fromSliceBytes
  answer _ _ graph := graph.queries

attribute [local instance] memGraphs

/-- The service alone with its backend at the time. -/
abbrev alone (nowMs : Int) : Contract backendInterface Backend :=
  .ofServer (fun w req => w.reply nowMs req) fun _ => True

omit [SliceJson] [Serde] [ManifestJson] in
theorem wp_getBlob {α : Type} {nowMs : Int} {w : Backend} {post : Backend → Except CoreError α → Prop}
    {hash : ContentHash} {f : Option Bytes → BackendProgram α}
    (later : Wp (alone nowMs) post w (f w.blobs[hash]?)) :
    Wp (alone nowMs) post w (Service.getBlob hash >>= f) :=
  Wp.server_ask_iff.mpr ⟨trivial, later⟩

omit [Serde] [ManifestJson] in
/-- The slices that a manifest names, each read from its blob. -/
theorem assemble_spec {nowMs : Int} (w : Backend) {m : Manifest}
    {slices : Std.ExtTreeMap String Graph.CodeGraph compare}
    (named : ∀ path : String, (slices[path]?).map sliceHash = m.entries[path]?)
    (stored : ∀ (path : String) slice, slices[path]? = some slice →
      ∃ bytes, w.blobs[sliceHash slice]? = some bytes ∧
        SliceJson.fromSliceBytes bytes = .ok slice) :
    Wp (alone nowMs) (fun _ result => result = .ok (InMemoryGraphStore.mk slices)) w
      (Service.assemble m) := by
  have listed : ∀ entry ∈ m.entries.toList, ∃ slice, slices[entry.1]? = some slice ∧
      sliceHash slice = entry.2 := by
    intro entry member
    have held := Std.ExtTreeMap.mem_toList_iff_getElem?_eq_some.mp member
    exact Option.map_eq_some_iff.mp ((named entry.1).trans held)
  have rest : ∀ path : String, path ∉ m.entries.toList.map Prod.fst →
      InMemoryGraphStore.new.slices[path]? = slices[path]? := by
    intro path absent
    cases held : slices[path]? with
    | none => simp [InMemoryGraphStore.new]
    | some slice =>
      have entry := named path
      rw [held] at entry
      have member := Std.ExtTreeMap.mem_toList_iff_getElem?_eq_some.mpr entry.symm
      exact absurd (List.mem_map_of_mem member) absent
  unfold Service.assemble
  change Wp _ _ w (List.foldlM _ InMemoryGraphStore.new _)
  generalize InMemoryGraphStore.new = graph at rest
  generalize m.entries.toList = entries at listed rest
  induction entries generalizing graph with
  | nil =>
    obtain ⟨own⟩ := graph
    have same : own = slices := Std.ExtTreeMap.ext_getElem? fun path => rest path (by simp)
    rw [List.foldlM_nil, same]
    exact rfl
  | cons entry later ih =>
    rw [List.foldlM_cons]
    obtain ⟨slice, held, hashed⟩ := listed entry List.mem_cons_self
    obtain ⟨bytes, blob, read⟩ := stored entry.1 slice held
    rw [hashed] at blob
    apply Wp.assoc
    apply wp_getBlob
    rw [blob]
    change Wp _ _ _ ((Program.ofExcept ((SliceJson.fromSliceBytes bytes).mapError CoreError.serde) >>=
      fun slice => pure (graph.insert entry.1 slice)) >>= _)
    rw [read]
    apply ih
    · intro entry' member
      exact listed entry' (List.mem_cons_of_mem _ member)
    · intro path absent
      rw [InMemoryGraphStore.insert, Std.ExtTreeMap.getElem?_insert]
      split
      next same =>
        rw [← Std.LawfulEqCmp.eq_of_compare same, held]
      next other =>
        apply rest
        simp only [List.map_cons, List.mem_cons, not_or]
        refine ⟨fun same => other ?_, absent⟩
        rw [same]
        exact Std.ReflCmp.compare_self

omit [ManifestJson] in
/-- A view whose database tracks its manifest is assembled to what the database files. -/
theorem Tracked.assembled (injective : Function.Injective Blake3.hashHex)
    (readBack : ∀ slice, SliceJson.fromSliceBytes (SliceJson.toSliceBytes slice) = .ok slice)
    {w : Backend} {files : ViewFiles} (tracked : Tracked repo view (w, files))
    (addressed : w.Addressed) (known : (w.store.get (Service.manifestKey repo view)).isSome)
    (present : ∀ m, ManifestAt (Service.manifestKey repo view) w m →
      ∀ (path : String) hash, m.entries[path]? = some hash → w.Present hash) (nowMs : Int) :
    Wp (alone nowMs)
      (fun _ result => ∃ graph : InMemoryGraphStore, result = .ok graph ∧ Filing graph files.graph)
      w (Service.view (fun _ _ => none) repo view) := by
  obtain ⟨m, held, mem, filing, named⟩ := tracked
  obtain ⟨record, stored⟩ := Option.isSome_iff_exists.mp known
  refine Wp.server_ask_iff.mpr ⟨trivial, ?_⟩
  rw [show (w.reply nowMs (.store (.get (Service.manifestKey repo view)))).2 =
    Except.ok (w.store.get (Service.manifestKey repo view)) from rfl, stored]
  change Wp (alone nowMs) _ w (.ofExcept (Manifest.fromBody record.body) >>= Service.assemble)
  have decoded : Manifest.fromBody record.body = .ok m := by
    rw [ManifestAt, stored] at held
    exact held
  rw [decoded]
  apply (assemble_spec w named ?_).mono
  · intro w' result ends
    exact ⟨mem, ends, filing⟩
  · intro path slice at_
    have entry := named path
    rw [at_] at entry
    have there := present m held path _ entry.symm
    obtain ⟨bytes, blob⟩ := Option.isSome_iff_exists.mp
      (Std.ExtTreeMap.mem_iff_isSome_getElem?.mp there)
    have same : bytes = SliceJson.toSliceBytes slice :=
      injective (congrArg ContentHash.text (addressed _ _ blob))
    exact ⟨bytes, blob, same ▸ readBack slice⟩

/-- Whatever driver each run took, and whoever used the store in between: without the
database of the view, the service assembles from the slices of its manifest a graph that the
database files, so that the answers of the one have the rows of the other. -/
theorem database_serves_slices (roundTrip : ManifestsRoundTrip)
    (injective : Function.Injective Blake3.hashHex)
    (readBack : ∀ slice, SliceJson.fromSliceBytes (SliceJson.toSliceBytes slice) = .ok slice)
    {w₀ w : Backend} {files : ViewFiles}
    (absent : w₀.store.get (Service.manifestKey repo view) = none) (addressed : w₀.Addressed)
    (run : Relation.ReflTransGen (Happens repo view) (w₀, .new) (w, files))
    (known : (w.store.get (Service.manifestKey repo view)).isSome)
    (present : ∀ m, ManifestAt (Service.manifestKey repo view) w m →
      ∀ (path : String) hash, m.entries[path]? = some hash → w.Present hash) (nowMs : Int) :
    ∃ graph : InMemoryGraphStore,
      ((Service.view (fun _ _ => none) repo view).exec (fun w req => w.reply nowMs req) w).2 =
          .ok graph ∧ Filing graph files.graph ∧
        (graph.Plain → ∀ sql, files.graph.Answers sql → SameRows graph.queries sql) := by
  have tracked := tracked_run roundTrip absent run
  have addressed := addressed_run run addressed
  obtain ⟨graph, served, filing⟩ :=
    (tracked.assembled injective readBack addressed known present nowMs).exec_server.1
  exact ⟨graph, served, filing, fun plain sql answers => filing.sameRows plain answers⟩

/-! ## The view of a full walk -/

/-- A view that has been indexed, last from the given source: each run reads a plain source,
and what git reports to an incremental run covers the changes since the run before. -/
inductive Indexed (repo view : String) : Option Source → Backend → ViewFiles → Prop
  | new {w : Backend} (absent : w.store.get (Service.manifestKey repo view) = none) :
      Indexed repo view none w .new
  | aside {last : Option Source} {w w' : Backend} {files : ViewFiles}
      (before : Indexed repo view last w files)
      (aside : Aside (Service.manifestKey repo view) w w') : Indexed repo view last w' files
  | failed {last : Option Source} {source : Source} {w w' : Backend} {files : ViewFiles}
      {e : IndexError} (before : Indexed repo view last w files)
      (run : Program.Runs (Beside (Service.manifestKey repo view)) w
        (index source repo view files) w' (.error e))
      (uncommitted : Aside (Service.manifestKey repo view) w w') : Indexed repo view last w' files
  | indexed {last : Option Source} {source : Source} {w w' : Backend} {files files' : ViewFiles}
      {summary : IndexSummary} (before : Indexed repo view last w files) (plain : source.Plain)
      (covers : ∀ changed ∈ source.reported files, ∀ earlier ∈ last,
        Covers earlier source changed)
      (run : Program.Runs (Beside (Service.manifestKey repo view)) w
        (index source repo view files) w' (.ok (summary, files'))) :
      Indexed repo view (some source) w' files'

/-- The slices of a full walk of the source that was indexed last. -/
def lastSlices (last : Option Source) (rel : String) : Option Graph.CodeGraph :=
  last.bind fun source => source.sliceAt rel

/-- The view is the one that a full walk of the last source leaves. -/
structure AsWalked (repo view : String) (last : Option Source) (w : Backend) (files : ViewFiles) :
    Prop where
  plain : ∀ source ∈ last, source.Plain
  unindexed : last = none → files.base = none
  manifest : ∃ m, ManifestAt (Service.manifestKey repo view) w m ∧
    ∀ rel : String, m.entries[rel]? = (lastSlices last rel).map sliceHash
  rows : ∃ mem : InMemoryGraphStore, Filing mem files.graph ∧
    ∀ rel : String, mem.slices[rel]? = lastSlices last rel

theorem AsWalked.indexed (roundTrip : ManifestsRoundTrip) {last : Option Source} {source : Source}
    {w w' : Backend} {files files' : ViewFiles} {summary : IndexSummary}
    (walked : AsWalked repo view last w files) (plain : source.Plain)
    (covers : ∀ changed ∈ source.reported files, ∀ earlier ∈ last, Covers earlier source changed)
    (run : Program.Runs (Beside (Service.manifestKey repo view)) w
      (index source repo view files) w' (.ok (summary, files'))) :
    AsWalked repo view (some source) w' files' := by
  obtain ⟨current, found, committed, -, advanced⟩ := ran roundTrip run
  obtain ⟨m, held, entries⟩ := walked.manifest
  obtain rfl : m = current := Except.ok.inj (held.symm.trans found)
  obtain ⟨mem, filing, rows⟩ := walked.rows
  obtain ⟨mem', filing', applied⟩ := filing_apply filing (stagedBy source files m)
  have built : ∀ rel : String,
      (builtView source files m).entries[rel]? = (source.sliceAt rel).map sliceHash ∧
      ((builtView source files m).staged m).rows rel mem.slices[rel]? = source.sliceAt rel := by
    intro rel
    unfold builtView
    cases reported : (files.recordedBase source).bind source.changedPaths with
    | none =>
      refine ⟨entries_fullView rel, rows_fullView source ?_⟩
      rw [rows, entries]
    | some changed =>
      cases last with
      | none =>
        simp [ViewFiles.recordedBase, walked.unindexed rfl] at reported
      | some earlier =>
        have covered := covers changed (by simp [Source.reported, reported]) earlier rfl
        have before := walked.plain earlier rfl
        refine ⟨entries_incrementalView before plain covered entries rel, ?_⟩
        rw [rows]
        exact rows_incrementalView before plain covered entries rel
  constructor
  · intro own same
    cases same
    exact plain
  · intro never
    cases never
  · exact ⟨_, committed, fun rel => (built rel).1⟩
  · refine ⟨mem', advanced ▸ filing', fun rel => ?_⟩
    rw [applied]
    exact (built rel).2

end Runs

/-! ## A view indexed twice -/

section Twice

instance countableSymbol : Countable Symbol := by
  refine Function.Injective.countable
    (f := fun s : Symbol => (s.name, s.kind.ctorIdx, s.startLine, s.endLine, s.owner))
    fun a b same => ?_
  obtain ⟨name, kind, first, last, owner⟩ := a
  obtain ⟨name', kind', first', last', owner'⟩ := b
  simp only [Prod.mk.injEq] at same
  obtain ⟨rfl, kinds, rfl, rfl, rfl⟩ := same
  cases kind <;> cases kind' <;> first | rfl | cases kinds

instance countableReference : Countable Reference := by
  refine Function.Injective.countable
    (f := fun r : Reference => (r.name, r.fromName, r.line, r.kind.ctorIdx, r.qualifier,
      r.fromScope.ctorIdx)) fun a b same => ?_
  obtain ⟨name, caller, line, kind, qualifier, scope⟩ := a
  obtain ⟨name', caller', line', kind', qualifier', scope'⟩ := b
  simp only [Prod.mk.injEq] at same
  obtain ⟨rfl, rfl, rfl, kinds, rfl, scopes⟩ := same
  have alike : kind = kind' := by cases kind <;> cases kind' <;> first | rfl | cases kinds
  have within : scope = scope' := by cases scope <;> cases scope' <;> first | rfl | cases scopes
  rw [alike, within]

instance countableImport : Countable Import := by
  refine Function.Injective.countable (f := fun i : Import => (i.name, i.path, i.depth, i.line))
    fun a b same => ?_
  cases a
  cases b
  simp_all

instance countableCodeGraph : Countable Graph.CodeGraph := by
  refine Function.Injective.countable
    (f := fun g : Graph.CodeGraph => (g.symbols, g.references, g.imports)) fun a b same => ?_
  cases a
  cases b
  simp_all

open Classical in
/-- There is a format in which slices read back as they were written. -/
theorem exists_sliceJson : ∃ _ : SliceJson, ∀ slice : Graph.CodeGraph,
    SliceJson.fromSliceBytes (SliceJson.toSliceBytes slice) = .ok slice := by
  obtain ⟨write, distinct⟩ := exists_bytes Graph.CodeGraph
  let format : SliceJson :=
    { toSliceBytes := write
      fromSliceBytes := fun bytes =>
        if written : ∃ slice, write slice = bytes then .ok written.choose else .error "not a slice" }
  refine ⟨format, fun slice => ?_⟩
  have written : ∃ slice', write slice' = write slice := ⟨slice, rfl⟩
  change (if written : ∃ slice', write slice' = write slice then _ else _) = _
  rw [dif_pos written, distinct written.choose_spec]

/-- One Rust file at a commit to which git reports no change. -/
def oneFile : Source where
  tree := .cons "lib.rs" (.file (some "fn helper() {}")) .nil
  rules := ⟨⟨[]⟩, fun _ => false⟩
  parse _ _ := some ⟨[⟨"helper", .function, 1, 1, none⟩], [], []⟩
  parseVersion := 13
  head := some "c0"
  changedPaths _ := some ⟨[], [], []⟩

def noRecords : Backend := ⟨.empty 32 cap32_pos, ∅, []⟩

theorem oneFile_files :
    (oneFile.rules.sourceFiles oneFile.tree).files = [(["lib.rs"], .rust)] := by
  decide +kernel

theorem oneFile_readable : oneFile.Readable := by
  intro entry listed
  rw [oneFile_files, List.mem_singleton] at listed
  subst listed
  exact ⟨"fn helper() {}", by decide +kernel⟩

theorem oneFile_plain : oneFile.Plain where
  wellFormed := by
    refine ⟨⟨?_, ?_, ?_, ?_, ?_⟩, ?_, trivial, trivial⟩ <;> decide
  inherits front back _ _ ignored := ignored

/-- A view that has no base is indexed in full. -/
theorem oneFile_new : ∀ changed ∈ oneFile.reported .new, changed.Unignored oneFile := by
  intro changed member
  cases member

theorem nothing_unignored : (⟨[], [], []⟩ : ChangedPaths).Unignored oneFile := by
  intro rel member
  simp at member

variable [Blake3] [SliceJson] [Serde] [ManifestJson]

omit [SliceJson] [Serde] [ManifestJson] in
/-- A run alone is a run among others that do nothing. -/
theorem runs_among {α : Type} {key : RecordKey} {w w' : Backend} {p : IndexProgram α}
    {result : Except IndexError α} (run : Program.Runs Backend.Served w p w' result) :
    Program.Runs (Among key) w p w' result :=
  run.mono fun w _ _ _ served => ⟨w, .refl key w, served⟩

omit [SliceJson] [Serde] [ManifestJson] in
theorem runs_beside {α : Type} {key : RecordKey} {w w' : Backend} {p : IndexProgram α}
    {result : Except IndexError α} (run : Program.Runs Backend.Served w p w' result) :
    Program.Runs (Beside key) w p w' result :=
  (runs_among run).mono fun _ _ _ _ => Among.beside

/-- Two runs in a row, the second one incremental. -/
structure IndexedTwice (w w' : Backend) (files files' : ViewFiles) : Prop where
  first : ∃ summary, Program.Runs Backend.Served noRecords
    (index oneFile "r" "main" .new) w (.ok (summary, files))
  second : ∃ summary, Program.Runs Backend.Served w
    (index oneFile "r" "main" files) w' (.ok (summary, files'))
  reported : oneFile.reported files = some ⟨[], [], []⟩
  known : (w'.store.get (Service.manifestKey "r" "main")).isSome
  present : ∀ m, ManifestAt (Service.manifestKey "r" "main") w' m →
    ∀ (path : String) hash, m.entries[path]? = some hash → w'.Present hash

theorem exists_indexedTwice (roundTrip : ManifestsRoundTrip) :
    ∃ w w' files files', IndexedTwice w w' files files' := by
  have held : ManifestAt (Service.manifestKey "r" "main") noRecords ⟨∅⟩ := rfl
  have live : ∀ r, noRecords.store.getRaw (Service.manifestKey "r" "main") = some r →
      r.isTombstone = false := by
    intro r none_
    cases none_
  have quiet := oneFile_new
  obtain ⟨w, ⟨summary, files⟩, first, advanced, present⟩ :=
    lands_index oneFile_readable quiet live rfl held (by simp)
  obtain ⟨current, found, committed, recorded, -⟩ := ran roundTrip (runs_beside first)
  obtain rfl : current = ⟨∅⟩ := Except.ok.inj (found.symm.trans held)
  have reported : oneFile.reported files = some ⟨[], [], []⟩ := by
    rw [show files = _ from advanced]
    rfl
  have live' : ∀ r, w.store.getRaw (Service.manifestKey "r" "main") = some r →
      r.isTombstone = false := by
    intro r there
    rw [MemStore.get, there] at recorded
    simpa using recorded
  have quiet' : ∀ changed ∈ oneFile.reported files, changed.Unignored oneFile := by
    intro changed member
    rw [reported] at member
    cases member
    exact nothing_unignored
  obtain ⟨w', ⟨summary', files'⟩, second, -, present'⟩ :=
    lands_index oneFile_readable quiet' live' rfl committed present
  obtain ⟨current', found', committed', recorded', -⟩ := ran roundTrip (runs_beside second)
  obtain rfl := Except.ok.inj (found'.symm.trans committed)
  refine ⟨w, w', files, files', ⟨_, first⟩, ⟨_, second⟩, reported, recorded', ?_⟩
  intro m at_ path hash entry
  obtain rfl := Except.ok.inj (at_.symm.trans committed')
  exact present' path hash entry

theorem IndexedTwice.happens {w w' : Backend} {files files' : ViewFiles}
    (twice : IndexedTwice w w' files files') :
    Relation.ReflTransGen (Happens "r" "main") (noRecords, .new) (w', files') := by
  obtain ⟨summary, first⟩ := twice.first
  obtain ⟨summary', second⟩ := twice.second
  have unignored := oneFile_new
  have unignored' : ∀ changed ∈ oneFile.reported files, changed.Unignored oneFile := by
    intro changed member
    rw [twice.reported] at member
    cases member
    exact nothing_unignored
  exact .tail (.single (.indexed unignored (runs_among first))) (.indexed unignored' (runs_among second))

theorem IndexedTwice.indexed {w w' : Backend} {files files' : ViewFiles}
    (twice : IndexedTwice w w' files files') : Indexed "r" "main" (some oneFile) w' files' := by
  obtain ⟨summary, first⟩ := twice.first
  obtain ⟨summary', second⟩ := twice.second
  have once : Indexed "r" "main" (some oneFile) w files :=
    .indexed (.new rfl) oneFile_plain (fun _ _ _ impossible => absurd impossible (by simp))
      (runs_beside first)
  refine .indexed once oneFile_plain ?_ (runs_beside second)
  intro changed member earlier same
  rw [twice.reported] at member
  cases member
  cases same
  exact ⟨fun _ _ _ _ => rfl, fun _ member => absurd member (by simp),
    fun _ member => absurd member (by simp)⟩

end Twice

section Sampled

attribute [local instance] sampleBlake3 memGraphs

/-- The database of the view indexed twice answers as the daemon does. -/
theorem twice_serves : ∃ (_ : SliceJson) (_ : Serde) (_ : ManifestJson) (w : Backend)
    (files : ViewFiles) (graph : InMemoryGraphStore),
      Relation.ReflTransGen (Happens "r" "main") (noRecords, .new) (w, files) ∧
      ((Service.view (fun _ _ => none) "r" "main").exec (fun w req => w.reply 0 req) w).2 =
        .ok graph ∧ Filing graph files.graph ∧
      (graph.Plain → ∀ sql, files.graph.Answers sql → SameRows graph.queries sql) := by
  obtain ⟨sliceJson, readBack⟩ := exists_sliceJson
  obtain ⟨serde, json, roundTrip⟩ := exists_roundTrip
  obtain ⟨_, w, _, files, twice⟩ := exists_indexedTwice roundTrip
  have empty : noRecords.Addressed := by
    intro hash bytes stored
    simp [noRecords] at stored
  obtain ⟨graph, served⟩ := database_serves_slices roundTrip sampleHashHex_injective readBack rfl
    empty twice.happens twice.known twice.present 0
  exact ⟨sliceJson, serde, json, w, files, graph, twice.happens, served⟩

end Sampled

end Gonzalo.Index
