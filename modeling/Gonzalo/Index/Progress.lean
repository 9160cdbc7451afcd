import Gonzalo.Index.FullWalk

/-!
# A run alone succeeds

Where nobody else writes and no call fails, a run over files that can be read commits what
its driver builds. It never finds a slice that it could not restore, and leaves a manifest
whose slices are all stored.
-/

set_option autoImplicit false

namespace Gonzalo.Index
open Gonzalo.Core Gonzalo.Graph Gonzalo.Lib Gonzalo.Server

section Landing

variable [Blake3] {key : RecordKey} {w : Backend} {α β : Type}

/-- Left alone, the program can end with a value, and then it is so. -/
def Lands (w : Backend) (p : IndexProgram α) (post : Backend → α → Prop) : Prop :=
  ∃ w' a, Program.Runs Backend.Served w p w' (.ok a) ∧ post w' a

namespace Lands

theorem done {a : α} {post : Backend → α → Prop} (held : post w a) :
    Lands w (.done a) post := ⟨w, a, .done w a, held⟩

theorem ask {req : BackendReq} {next : req.Ans → IndexProgram α} {post : Backend → α → Prop}
    (later : Lands (w.reply 0 req).1 (next (w.reply 0 req).2) post) :
    Lands w (@Program.ask backendInterface _ _ req next) post := by
  obtain ⟨w', a, run, held⟩ := later
  exact ⟨w', a, .ask (Backend.served_of_reply 0 w req) run, held⟩

theorem bind {p : IndexProgram α} {f : α → IndexProgram β} {mid : Backend → α → Prop}
    {post : Backend → β → Prop} (first : Lands w p mid)
    (second : ∀ w' a, mid w' a → Lands w' (f a) post) : Lands w (p >>= f) post := by
  obtain ⟨w₁, a, run, held⟩ := first
  obtain ⟨w₂, b, later, ends⟩ := second w₁ a held
  exact ⟨w₂, b, run.bind later, ends⟩

theorem foldlM {τ : Type} {body : α → τ → IndexProgram α} {f : α → τ → α}
    (inv : Backend → α → Prop) {items : List τ}
    (turn : ∀ item ∈ items, ∀ w acc, inv w acc →
      Lands w (body acc item) fun w' acc' => acc' = f acc item ∧ inv w' acc') {acc : α}
    (start : inv w acc) :
    Lands w (items.foldlM body acc) fun w' acc' => acc' = items.foldl f acc ∧ inv w' acc' := by
  induction items generalizing w acc with
  | nil => exact done ⟨rfl, start⟩
  | cons item rest ih =>
    rw [List.foldlM_cons, List.foldl_cons]
    apply (turn item List.mem_cons_self w acc start).bind
    rintro w' _ ⟨rfl, kept⟩
    exact ih (fun item member => turn item (List.mem_cons_of_mem _ member)) kept

end Lands

variable [SliceJson]

/-- Blobs were put, and what is staged is stored. -/
structure Uploaded (w w' : Backend) (view : DesiredView) : Prop where
  store : w'.store = w.store
  kept : ∀ hash, w.Present hash → w'.Present hash
  staged : ∀ rel slice, (rel, slice) ∈ view.staging.inserts → w'.Present (sliceHash slice)

omit [SliceJson] in
theorem present_putBlob_self (w : Backend) (content : Bytes) :
    (w.putBlob content).Present (.of content) := by
  simp [Backend.Present, Backend.putBlob]

theorem lands_putSlice {w₀ : Backend} {view : DesiredView} (uploaded : Uploaded w₀ w view)
    (slice : Graph.CodeGraph) :
    Lands w (putSlice slice) fun w' hash => hash = sliceHash slice ∧
      Uploaded w₀ w' view ∧ w'.Present (sliceHash slice) := by
  have stored := present_putBlob_self w (SliceJson.toSliceBytes slice)
  refine Lands.ask (.done ⟨rfl, ⟨uploaded.store, ?_, ?_⟩, stored⟩)
  · intro hash present
    exact Backend.present_putBlob (uploaded.kept hash present)
  · intro rel own staged
    exact Backend.present_putBlob (uploaded.staged rel own staged)

theorem Uploaded.insert {w₀ : Backend} {view : DesiredView} (uploaded : Uploaded w₀ w view)
    {rel : String} {slice : Graph.CodeGraph} (present : w.Present (sliceHash slice)) :
    Uploaded w₀ w (view.insert rel slice (sliceHash slice)) where
  store := uploaded.store
  kept := uploaded.kept
  staged path own member := by
    rcases List.mem_append.mp member with before | here
    · exact uploaded.staged path own before
    · cases List.mem_singleton.mp here
      exact present

theorem Uploaded.same {w₀ : Backend} {view view' : DesiredView} (uploaded : Uploaded w₀ w view)
    (inserts : view'.staging.inserts = view.staging.inserts) : Uploaded w₀ w view' where
  store := uploaded.store
  kept := uploaded.kept
  staged path own member := uploaded.staged path own (inserts ▸ member)

theorem lands_buildDesiredFull {source : Source}
    (readable : ∀ entry ∈ (source.rules.sourceFiles source.tree).files,
      ∃ content, (Node.dir source.tree).readPath entry.1 = some content) :
    Lands w (buildDesiredFull source) fun w' view =>
      view.entries = (fullView source).entries ∧ view.staging = (fullView source).staging ∧
        Uploaded w w' view := by
  have start : Uploaded w w (.start ∅ false) :=
    ⟨rfl, fun _ present => present, fun _ _ member => nomatch member⟩
  apply (Lands.foldlM (Uploaded w) (f := fullTurn source) ?_ start).bind
  · rintro w' _ ⟨rfl, uploaded⟩
    exact .done ⟨rfl, rfl, uploaded.same rfl⟩
  · intro entry listed w' view uploaded
    obtain ⟨content, read⟩ := readable entry listed
    unfold fullStep fullTurn
    rw [read]
    dsimp only [Option.bind_some]
    cases source.parse entry.2 content with
    | none => exact .done ⟨rfl, uploaded.same rfl⟩
    | some slice =>
      apply (lands_putSlice uploaded slice).bind
      rintro w'' _ ⟨rfl, uploaded', present⟩
      exact .done ⟨rfl, uploaded'.insert present⟩

omit [Blake3] [SliceJson] in
@[simp] theorem inserts_dropPath (view : DesiredView) (rel : String) :
    (view.dropPath rel).staging.inserts = view.staging.inserts := by
  unfold DesiredView.dropPath
  split <;> rfl

theorem lands_changeStep {w₀ : Backend} {source : Source} {view : DesiredView}
    (uploaded : Uploaded w₀ w view) (rel : String) :
    Lands w (changeStep source view rel) fun w' view' =>
      view' = changeTurn source view rel ∧ Uploaded w₀ w' view' := by
  unfold changeStep changeTurn
  split
  · cases (extension rel).bind Language.fromExtension with
    | none => exact .done ⟨rfl, uploaded.same rfl⟩
    | some language =>
      dsimp only
      cases (Node.dir source.tree).read rel with
      | none => exact .done ⟨rfl, uploaded.same (inserts_dropPath view rel)⟩
      | some content =>
        dsimp only
        cases source.parse language content with
        | none => exact .done ⟨rfl, uploaded.same rfl⟩
        | some slice =>
          apply (lands_putSlice uploaded slice).bind
          rintro w' _ ⟨rfl, uploaded', present⟩
          exact .done ⟨rfl, (uploaded'.insert present).same rfl⟩
  · exact .done ⟨rfl, uploaded.same (inserts_dropPath view rel)⟩

theorem lands_buildDesiredIncremental (source : Source) (current : Manifest)
    (changed : ChangedPaths) : Lands w (buildDesiredIncremental source current changed)
      fun w' view => view = incrementalView source current changed ∧ Uploaded w w' view := by
  have start : Uploaded w w (pruneStale source current) := by
    refine ⟨rfl, fun _ present => present, fun rel slice member => ?_⟩
    rw [pruneStale, (foldl_remove _ _ rel).2] at member
    cases member
  have kept : ∀ (deleted : List String) (view : DesiredView),
      (deleted.foldl DesiredView.dropPath view).staging.inserts = view.staging.inserts := by
    intro deleted
    induction deleted with
    | nil => exact fun view => rfl
    | cons rel rest ih =>
      intro view
      rw [List.foldl_cons, ih, inserts_dropPath]
  apply (Lands.foldlM (Uploaded w) (f := changeTurn source)
    (fun rel _ w' view uploaded => lands_changeStep uploaded rel) start).bind
  rintro w' _ ⟨rfl, uploaded⟩
  exact .done ⟨rfl, uploaded.same (kept _ _)⟩

/-- Every file that a full walk lists can be read. -/
def Source.Readable (source : Source) : Prop :=
  ∀ entry ∈ (source.rules.sourceFiles source.tree).files,
    ∃ content, (Node.dir source.tree).readPath entry.1 = some content

theorem lands_buildDesired {source : Source} (readable : source.Readable) (files : ViewFiles)
    (current : Manifest) : Lands w (buildDesired source files current) fun w' view =>
      view.entries = (builtView source files current).entries ∧
        view.staging = (builtView source files current).staging ∧ Uploaded w w' view := by
  unfold buildDesired builtView
  cases (files.recordedBase source).bind source.changedPaths with
  | none => exact lands_buildDesiredFull readable
  | some changed =>
    obtain ⟨w', view, run, rfl, uploaded⟩ := lands_buildDesiredIncremental source current changed
    exact ⟨w', _, run, rfl, rfl, uploaded⟩

/-- Slices that are stored need no restoring. -/
theorem lands_ensureSlicesPresent (staging : GraphStaging) {wanted : List (String × ContentHash)}
    (present : ∀ entry ∈ wanted, w.Present entry.2) :
    Lands w (ensureSlicesPresent staging wanted) fun w' _ => w' = w := by
  unfold ensureSlicesPresent
  generalize 0 = restored
  induction wanted generalizing restored with
  | nil => exact .done rfl
  | cons entry rest ih =>
    rw [List.foldlM_cons]
    have here : w.blobs.contains entry.2 = true := present entry List.mem_cons_self
    have one : Lands w (ensureSlice staging restored entry) fun w' _ => w' = w := by
      apply Lands.ask
      change Lands w (if w.blobs.contains entry.2 = true then pure restored else _) _
      rw [if_pos here]
      exact .done rfl
    apply one.bind
    rintro w' restored' rfl
    exact ih (fun entry member => present entry (List.mem_cons_of_mem _ member)) restored'

section Committing

variable [Serde] [ManifestJson]

omit [SliceJson] [Serde] in
/-- A put over a live record, or where there is none, is committed. -/
theorem lands_put (m : Manifest) (live : ∀ r, w.store.getRaw key = some r → r.isTombstone = false) :
    Lands w ((Service.put (manifestRecord key (w.store.get key) m)
        ((w.store.get key).map Record.revision)).mapError IndexError.store)
      fun w' answer => (∃ revision, answer = .committed revision) ∧ w'.blobs = w.blobs := by
  have committed : ∃ revision, (w.store.put 0 (manifestRecord key (w.store.get key) m)
      ((w.store.get key).map Record.revision)).2 = .ok (.committed revision) := by
    rw [MemStore.get, MemStore.put, MemStore.write]
    cases held : w.store.getRaw key with
    | none =>
      simp [planPut, held, manifestRecord, Record.isTombstone]
    | some r =>
      have alive : ¬ r.kind = .tombstone := by simpa [Record.isTombstone] using live r held
      simp [planPut, held, manifestRecord, Record.isTombstone, alive]
  obtain ⟨revision, answered⟩ := committed
  apply Lands.ask
  change Lands _ ((Program.ofExcept (w.store.put 0 (manifestRecord key (w.store.get key) m)
    ((w.store.get key).map Record.revision)).2).mapError IndexError.store) _
  rw [answered]
  exact .done ⟨⟨revision, rfl⟩, rfl⟩

/-- A run alone over readable files commits what its driver builds, and every slice that the
manifest now names is stored, if those that it named before were. -/
theorem lands_index {source : Source} {files : ViewFiles} {current : Manifest}
    (readable : source.Readable)
    (unignored : ∀ changed ∈ source.reported files, changed.Unignored source)
    (live : ∀ r, w.store.getRaw key = some r → r.isTombstone = false) {repo view : String}
    (own : key = Service.manifestKey repo view) (held : ManifestAt key w current)
    (stored : ∀ (path : String) hash, current.entries[path]? = some hash → w.Present hash) :
    Lands w (index source repo view files) fun w' result =>
      result.2 = files.advance source (stagedBy source files current) ∧
        ∀ (path : String) hash,
          (builtView source files current).entries[path]? = some hash → w'.Present hash := by
  subst own
  have read : Lands w
      ((Service.get (Service.manifestKey repo view)).mapError IndexError.store)
      fun w' existing => w' = w ∧ existing = w.store.get (Service.manifestKey repo view) :=
    Lands.ask (.done ⟨rfl, rfl⟩)
  apply read.bind
  rintro _ _ ⟨rfl, rfl⟩
  rw [held]
  apply (lands_buildDesired readable files current).bind
  intro w₁ desired ⟨entries, staging, uploaded⟩
  have present : ∀ (path : String) hash, desired.entries[path]? = some hash → w₁.Present hash := by
    intro path hash entry
    have stages : Stages current _ := stages_builtView unignored
    cases staged : desired.staging.slice path with
    | some slice =>
      rcases stages.taken path slice (staging ▸ staged) with gone | here
      · exact absurd gone (stages.kept path hash (entries ▸ entry))
      · rw [← entries, entry] at here
        cases here
        exact uploaded.staged path slice (GraphStaging.mem_of_slice staged)
    | none =>
      rcases stages.carried path (staging ▸ staged) with none_ | same
      · rw [← entries, entry] at none_
        cases none_
      · rw [← entries, entry] at same
        exact uploaded.kept hash (stored path hash same.symm)
  have live₁ : ∀ r, w₁.store.getRaw (Service.manifestKey repo view) = some r →
      r.isTombstone = false := uploaded.store ▸ live
  rw [← uploaded.store]
  apply (lands_put (current.reconcile desired.entries).manifest live₁).bind
  rintro w₂ _ ⟨⟨revision, rfl⟩, blobs⟩
  have present₂ : ∀ (path : String) hash, desired.entries[path]? = some hash →
      w₂.Present hash := by
    intro path hash entry
    rw [Backend.Present, blobs]
    exact present path hash entry
  have wanted : ∀ entry ∈ newlyReferenced (current.reconcile desired.entries),
      w₂.Present entry.2 := by
    intro entry member
    obtain ⟨path, -, named⟩ := List.mem_filterMap.mp member
    obtain ⟨hash, held, rfl⟩ := Option.map_eq_some_iff.mp named
    exact present₂ path hash held
  apply (lands_ensureSlicesPresent _ wanted).bind
  rintro _ restored rfl
  refine .done ⟨?_, fun path hash entry => present₂ path hash (entries ▸ entry)⟩
  · simp only [stagedBy, ← entries, ← staging]

end Committing

end Landing

end Gonzalo.Index
