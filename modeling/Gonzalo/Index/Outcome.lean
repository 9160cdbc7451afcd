import Gonzalo.Index.Drivers

/-!
# What a run amounts to

Others may use the store and its blobs while an index run goes on, as long as they leave the
manifest of its view alone. A run that succeeds has then computed a function of the manifest
it read and of its source, and has committed the manifest and moved the files of the view to
match.
-/

set_option autoImplicit false

namespace Gonzalo.Index
open Gonzalo.Core Gonzalo.Graph Gonzalo.Lib Gonzalo.Server

/-! ## Calls among others -/

/-- Others may do anything but change the record at the key. -/
def Aside (key : RecordKey) (w w' : Backend) : Prop := w'.store.getRaw key = w.store.getRaw key

theorem Aside.refl (key : RecordKey) (w : Backend) : Aside key w w := rfl

theorem Aside.trans {key : RecordKey} {w w' w'' : Backend} (first : Aside key w w')
    (second : Aside key w' w'') : Aside key w w'' := Eq.trans second first

section Calls

variable [Blake3] {key : RecordKey} {w w' : Backend}

/-- A call that is answered once others had their turn. -/
def Beside (key : RecordKey) (w : Backend) (req : BackendReq) (answer : req.Ans) (w' : Backend) :
    Prop :=
  ∃ w₁, Aside key w w₁ ∧ w₁.Served req answer w'

/-- Others may do anything but change the record at the key or file a blob under another hash. -/
structure Others (key : RecordKey) (w w' : Backend) : Prop where
  aside : Aside key w w'
  addressed : w.Addressed → w'.Addressed

theorem Others.refl (key : RecordKey) (w : Backend) : Others key w w := ⟨.refl key w, id⟩

/-- A call that is answered once such others had their turn. -/
def Among (key : RecordKey) (w : Backend) (req : BackendReq) (answer : req.Ans) (w' : Backend) :
    Prop :=
  ∃ w₁, Others key w w₁ ∧ w₁.Served req answer w'

theorem Among.beside {req : BackendReq} {answer : req.Ans} (among : Among key w req answer w') :
    Beside key w req answer w' := by
  obtain ⟨w₁, others, served⟩ := among
  exact ⟨w₁, others.aside, served⟩

theorem Among.addressed {req : BackendReq} {answer : req.Ans} (among : Among key w req answer w')
    (addressed : w.Addressed) : w'.Addressed := by
  obtain ⟨w₁, others, served⟩ := among
  exact served.addressed (others.addressed addressed)

/-- A call that leaves the store alone leaves the record at the key alone. -/
theorem Beside.aside {req : BackendReq} {answer : req.Ans} (beside : Beside key w req answer w')
    (keeps : ∀ (w : Backend) nowMs, (w.reply nowMs req).1.store = w.store) : Aside key w w' := by
  obtain ⟨w₁, aside, served⟩ := beside
  have kept : ∀ nowMs, Aside key w₁ (w₁.reply nowMs req).1 := by
    intro nowMs
    rw [Aside, keeps w₁ nowMs]
  obtain ⟨nowMs, ⟨-, rfl⟩ | ⟨-, rfl | rfl⟩⟩ := served.reply
  · exact aside.trans (kept nowMs)
  · exact aside
  · exact aside.trans (kept nowMs)

/-- The program leaves the record at the key alone, and what it returns is so. -/
def Quiet {α : Type} (key : RecordKey) (holds : α → Prop) (p : IndexProgram α) : Prop :=
  ∀ w, Wp (.ofRelation (Beside key))
    (fun w' result => Aside key w w' ∧ ∀ a, result = .ok a → holds a) w p

namespace Quiet
variable {α β : Type} {holds : α → Prop} {post : β → Prop}

theorem done {a : α} (held : holds a) : Quiet key holds (.done a) := by
  intro w
  refine ⟨.refl key w, fun b same => ?_⟩
  cases same
  exact held

theorem fail {e : IndexError} : Quiet key holds (.fail e) := by
  intro w
  exact ⟨.refl key w, fun b same => by cases same⟩

theorem bind {p : IndexProgram α} {f : α → IndexProgram β} (first : Quiet key holds p)
    (second : ∀ a, holds a → Quiet key post (f a)) : Quiet key post (p >>= f) := by
  intro w
  apply Wp.bind (first w)
  · intro w₁ a ⟨aside, held⟩
    apply (second a (held a rfl) w₁).mono
    intro w₂ result ⟨later, kept⟩
    exact ⟨aside.trans later, kept⟩
  · intro w₁ e ⟨aside, _⟩
    exact ⟨aside, fun b same => by cases same⟩

theorem mono {weaker : α → Prop} {p : IndexProgram α} (quiet : Quiet key holds p)
    (implies : ∀ a, holds a → weaker a) : Quiet key weaker p := by
  intro w
  apply (quiet w).mono
  intro w' result ⟨aside, held⟩
  exact ⟨aside, fun a same => implies a (held a same)⟩

/-- A call that leaves the store alone, whatever it answers. -/
theorem ask {req : BackendReq} {next : req.Ans → IndexProgram α}
    (keeps : ∀ (w : Backend) nowMs, (w.reply nowMs req).1.store = w.store)
    (later : ∀ answer, Quiet key holds (next answer)) :
    Quiet key holds (@Program.ask backendInterface _ _ req next) := by
  intro w
  refine ⟨trivial, fun answer w' beside => ?_⟩
  apply (later answer w').mono
  intro w'' result ⟨after, held⟩
  exact ⟨(beside.aside keeps).trans after, held⟩

/-- A loop whose turns compute a function computes its fold. -/
theorem foldlM {τ : Type} {body : α → τ → IndexProgram α} {f : α → τ → α}
    (turn : ∀ acc item, Quiet key (· = f acc item) (body acc item)) (items : List τ) (acc : α) :
    Quiet key (· = items.foldl f acc) (items.foldlM body acc) := by
  induction items generalizing acc with
  | nil => exact done rfl
  | cons item rest ih =>
    rw [List.foldlM_cons, List.foldl_cons]
    apply (turn acc item).bind
    rintro _ rfl
    exact ih _

end Quiet

variable [SliceJson]

theorem quiet_putSlice (slice : Graph.CodeGraph) :
    Quiet key (· = sliceHash slice) (putSlice slice) := by
  intro w
  refine ⟨trivial, fun answer w' beside => ?_⟩
  have aside := beside.aside fun _ _ => rfl
  obtain ⟨w₁, -, served⟩ := beside
  obtain ⟨nowMs, ⟨rfl, -⟩ | ⟨⟨e, rfl⟩, -⟩⟩ := served.reply
  · refine ⟨aside, fun hash same => ?_⟩
    cases same
    rfl
  · exact ⟨aside, fun hash same => by cases same⟩

theorem quiet_ensureSlice (staging : GraphStaging) (restored : Nat)
    (entry : String × ContentHash) :
    Quiet key (fun _ => True) (ensureSlice staging restored entry) := by
  refine Quiet.ask (fun _ _ => rfl) fun answer => ?_
  cases answer with
  | error e => exact .fail
  | ok present =>
    cases present with
    | true => exact .done trivial
    | false =>
      dsimp only [Except.mapError, Program.ofExcept_ok, Program.done_bind, Bool.false_eq_true,
        if_false]
      split
      · exact .fail
      · apply (quiet_putSlice _).bind
        intro hash _
        split
        · exact .done trivial
        · exact .fail

theorem quiet_ensureSlicesPresent (staging : GraphStaging) (wanted : List (String × ContentHash)) :
    Quiet key (fun _ => True) (ensureSlicesPresent staging wanted) := by
  unfold ensureSlicesPresent
  generalize 0 = restored
  induction wanted generalizing restored with
  | nil => exact .done trivial
  | cons entry rest ih =>
    rw [List.foldlM_cons]
    exact (quiet_ensureSlice staging restored entry).bind fun restored _ => ih restored

/-! ## The drivers as functions -/

/-- A turn of the full walk. -/
def fullTurn (source : Source) (view : DesiredView) (entry : List String × Language) :
    DesiredView :=
  match ((Node.dir source.tree).readPath entry.1).bind (source.parse entry.2) with
  | some slice => view.insert (relative entry.1) slice (sliceHash slice)
  | none => view.skip (relative entry.1)

/-- The full walk. -/
def fullView (source : Source) : DesiredView :=
  (source.rules.sourceFiles source.tree).files.foldl (fullTurn source) (.start ∅ false)

/-- A turn over a path that git reports as added or modified. -/
def changeTurn (source : Source) (view : DesiredView) (rel : String) : DesiredView :=
  if source.rules.filter.isIndexable rel then
    match (extension rel).bind Language.fromExtension with
    | none => view.unindex (extension rel)
    | some language =>
      match (Node.dir source.tree).read rel with
      | none => view.dropPath rel
      | some content =>
        match source.parse language content with
        | none => view.skip rel
        | some slice => (view.insert rel slice (sliceHash slice)).countFile
  else (view.dropPath rel).ignoreFile

/-- The incremental walk. -/
def incrementalView (source : Source) (current : Manifest) (changed : ChangedPaths) :
    DesiredView :=
  changed.deleted.foldl DesiredView.dropPath
    ((changed.added ++ changed.modified).foldl (changeTurn source) (pruneStale source current))

theorem quiet_fullStep (source : Source) (view : DesiredView) (entry : List String × Language) :
    Quiet key (· = fullTurn source view entry) (fullStep source view entry) := by
  unfold fullStep fullTurn
  cases (Node.dir source.tree).readPath entry.1 with
  | none => exact .fail
  | some content =>
    dsimp only [Option.bind_some]
    cases source.parse entry.2 content with
    | none => exact .done rfl
    | some slice =>
      apply (quiet_putSlice slice).bind
      rintro _ rfl
      exact .done rfl

theorem quiet_buildDesiredFull (source : Source) :
    Quiet key (fun view => view.entries = (fullView source).entries ∧
      view.staging = (fullView source).staging) (buildDesiredFull source) := by
  apply (Quiet.foldlM (quiet_fullStep source) _ _).bind
  rintro _ rfl
  exact .done ⟨rfl, rfl⟩

theorem quiet_changeStep (source : Source) (view : DesiredView) (rel : String) :
    Quiet key (· = changeTurn source view rel) (changeStep source view rel) := by
  unfold changeStep changeTurn
  split
  · cases (extension rel).bind Language.fromExtension with
    | none => exact .done rfl
    | some language =>
      dsimp only
      cases (Node.dir source.tree).read rel with
      | none => exact .done rfl
      | some content =>
        dsimp only
        cases source.parse language content with
        | none => exact .done rfl
        | some slice =>
          apply (quiet_putSlice slice).bind
          rintro _ rfl
          exact .done rfl
  · exact .done rfl

theorem quiet_buildDesiredIncremental (source : Source) (current : Manifest)
    (changed : ChangedPaths) : Quiet key (· = incrementalView source current changed)
      (buildDesiredIncremental source current changed) := by
  apply (Quiet.foldlM (quiet_changeStep source) _ _).bind
  rintro _ rfl
  exact .done rfl

/-- The driver that the recorded base selects, as a function. -/
def builtView (source : Source) (files : ViewFiles) (current : Manifest) : DesiredView :=
  match (files.recordedBase source).bind source.changedPaths with
  | some changed => incrementalView source current changed
  | none => fullView source

theorem quiet_buildDesired (source : Source) (files : ViewFiles) (current : Manifest) :
    Quiet key (fun view => view.entries = (builtView source files current).entries ∧
      view.staging = (builtView source files current).staging)
      (buildDesired source files current) := by
  unfold buildDesired builtView
  cases (files.recordedBase source).bind source.changedPaths with
  | none => exact quiet_buildDesiredFull source
  | some changed =>
    apply (quiet_buildDesiredIncremental source current changed).mono
    rintro _ rfl
    exact ⟨rfl, rfl⟩

end Calls

/-! ## The run as a step -/

section Run

variable [Blake3] [SliceJson] [Serde] [ManifestJson] {key : RecordKey} {w w' : Backend}

/-- The manifest that the backend holds at the key, empty where there is no live record. -/
def ManifestAt (key : RecordKey) (w : Backend) (m : Manifest) : Prop :=
  currentManifest (w.store.get key) = .ok m

omit [Blake3] [SliceJson] [Serde] [ManifestJson] in
theorem Aside.get (aside : Aside key w w') : w'.store.get key = w.store.get key := by
  rw [MemStore.get, MemStore.get, show w'.store.getRaw key = w.store.getRaw key from aside]

omit [Blake3] [SliceJson] [ManifestJson] in
theorem ManifestAt.aside {m : Manifest} (held : ManifestAt key w m) (aside : Aside key w w') :
    ManifestAt key w' m := by
  unfold ManifestAt at held ⊢
  rwa [aside.get]

/-- What a run that succeeds stages for the graph. -/
def stagedBy (source : Source) (files : ViewFiles) (current : Manifest) : GraphStaging :=
  let built := builtView source files current
  { built.staging with
    removes := built.staging.removes ++ (current.reconcile built.entries).deleted }

/-- What a run that succeeds has done: it has committed what its driver built over the
manifest it found, and advanced the files of the view to it. -/
structure RanTo (source : Source) (key : RecordKey) (files : ViewFiles) (w w' : Backend)
    (files' : ViewFiles) (current : Manifest) : Prop where
  found : ManifestAt key w current
  committed : ManifestAt key w' ⟨(builtView source files current).entries⟩
  recorded : (w'.store.get key).isSome
  advanced : files' = files.advance source (stagedBy source files current)

omit [SliceJson] [Serde] [ManifestJson] in
/-- A put that is committed leaves a live record with the body put. -/
theorem committed_put {s : MemStore} {nowMs : Int} {record : Record} {expected : Option Revision}
    {revision : Revision} (committed : (s.put nowMs record expected).2 = .ok (.committed revision)) :
    ∃ stored, (s.put nowMs record expected).1.get record.key = some stored ∧
      stored.body = record.body := by
  rcases s.put_effect nowMs record expected with ⟨stored, planned, done⟩ | ⟨-, never⟩
  · obtain ⟨live, cases_⟩ := planPut_write planned
    have shape : stored.key = record.key ∧ stored.body = record.body ∧
        stored.isTombstone = false := by
      rcases cases_ with ⟨-, -, rfl⟩ | ⟨t, -, -, -, -, rfl⟩ | ⟨c, -, -, -, rfl⟩
      · exact ⟨rfl, rfl, live⟩
      · exact ⟨rfl, rfl, live⟩
      · exact ⟨rfl, rfl, live⟩
    obtain ⟨own, body, alive⟩ := shape
    refine ⟨stored, ?_, body⟩
    rw [done, MemStore.get, MemStore.getRaw_insert, if_pos own]
    simp [alive]
  · exact absurd committed (never revision)

omit [SliceJson] [Serde] [ManifestJson] in
theorem spec_get (key : RecordKey) (w : Backend) :
    Wp (.ofRelation (Beside key)) (fun w' result => Aside key w w' ∧
        ∀ existing, result = .ok existing → existing = w.store.get key)
      w ((Service.get key).mapError IndexError.store) := by
  refine ⟨trivial, fun answer w' beside => ?_⟩
  have aside := beside.aside fun _ _ => rfl
  obtain ⟨w₁, before, served⟩ := beside
  obtain ⟨nowMs, ⟨rfl, -⟩ | ⟨⟨e, rfl⟩, -⟩⟩ := served.reply
  · refine ⟨aside, fun existing same => ?_⟩
    cases same
    unfold MemStore.get
    rw [show w₁.store.getRaw key = w.store.getRaw key from before]
  · exact ⟨aside, fun existing same => by cases same⟩

omit [SliceJson] in
theorem spec_put (roundTrip : ManifestsRoundTrip) (existing : Option Record) (m : Manifest)
    (w : Backend) :
    Wp (.ofRelation (Beside key))
      (fun w' result => ∀ revision, result = .ok (.committed revision) →
        ManifestAt key w' m ∧ (w'.store.get key).isSome)
      w ((Service.put (manifestRecord key existing m) (existing.map Record.revision)).mapError
        IndexError.store) := by
  refine ⟨trivial, fun answer w' beside => ?_⟩
  obtain ⟨w₁, -, served⟩ := beside
  cases answer with
  | error e =>
    intro revision same
    cases same
  | ok outcome =>
    intro revision same
    cases same
    obtain ⟨nowMs, ⟨answered, rfl⟩ | ⟨⟨e, failed⟩, -⟩⟩ := served.reply
    · obtain ⟨stored, live, body⟩ := committed_put answered.symm
      have held : currentManifest (some stored) = .ok m := by
        rw [currentManifest, body]
        exact roundTrip.graph m
      exact ⟨(congrArg currentManifest live).trans held, (congrArg Option.isSome live).trans rfl⟩
    · cases failed

/-- A run that succeeds does what `RanTo` says. -/
theorem index_spec (roundTrip : ManifestsRoundTrip) (source : Source) (repo view : String)
    (files : ViewFiles) (w : Backend) :
    Wp (.ofRelation (Beside (Service.manifestKey repo view)))
      (fun w' result => ∀ summary files', result = .ok (summary, files') →
        ∃ current, RanTo source (Service.manifestKey repo view) files w w' files' current)
      w (index source repo view files) := by
  apply (spec_get _ w).bind
  · intro w₁ existing ⟨aside, held⟩
    obtain rfl := held existing rfl
    cases found : currentManifest (w.store.get (Service.manifestKey repo view)) with
    | error e =>
      intro summary files' same
      cases same
    | ok current =>
      apply (quiet_buildDesired source files current w₁).bind
      · intro w₂ desired ⟨_, built⟩
        obtain ⟨entries, staging⟩ := built desired rfl
        apply (spec_put roundTrip (w.store.get (Service.manifestKey repo view))
          (current.reconcile desired.entries).manifest w₂).bind
        · intro w₃ answer committed
          cases answer with
          | conflict c =>
            intro summary files' same
            cases same
          | committed revision =>
            apply (quiet_ensureSlicesPresent _ _ w₃).bind
            · intro w₄ restored ⟨after, _⟩ summary files' same
              cases same
              obtain ⟨held, recorded⟩ := committed revision rfl
              refine ⟨current, found, ?_, ?_, ?_⟩
              · rw [← entries]
                exact held.aside after
              · rwa [after.get]
              · simp only [stagedBy, ← entries, ← staging]
            · intro w₄ e _ summary files' same
              cases same
        · intro w₃ e _ summary files' same
          cases same
      · intro w₂ e _ summary files' same
        cases same
  · intro w₁ e _ summary files' same
    cases same

end Run

end Gonzalo.Index
