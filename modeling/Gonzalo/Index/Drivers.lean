import Gonzalo.Core.ManifestJson
import Gonzalo.Graph.Sqlite
import Gonzalo.Index.Walk
import Gonzalo.Server.Service

/-!
# An index run

`index_with_worker` of `gonzalo-cli/src/lib.rs` with its two drivers, and `reconcile` of
`gonzalo-core/src/manifest.rs`. What the run reads of the outside (the tree, `git2`, the
parser) is one `Source`; the record store and the blobs answer request by request, and the
database, the base commit and the parse version of the view are files of their own, which
the run writes last.
-/

set_option autoImplicit false

/-! ## Reconciling a manifest -/

namespace Gonzalo.Core

/-- `Reconciliation`. -/
structure Reconciliation where
  added : List String
  modified : List String
  deleted : List String
  manifest : Manifest

/-- `Manifest::reconcile`. -/
def Manifest.reconcile (self : Manifest) (desired : Std.ExtTreeMap String ContentHash compare) :
    Reconciliation where
  added := desired.keys.filter fun path => self.entries[path]? = none
  modified := desired.keys.filter fun path =>
    self.entries[path]? ≠ none ∧ self.entries[path]? ≠ desired[path]?
  deleted := self.entries.keys.filter fun path => !desired.contains path
  manifest := ⟨desired⟩

end Gonzalo.Core

namespace Gonzalo.Index
open Gonzalo.Core Gonzalo.Graph Gonzalo.Lib Gonzalo.Server

/-- A slice as `serde_json` writes and reads it. -/
class SliceJson where
  toSliceBytes : Graph.CodeGraph → Bytes
  fromSliceBytes : Bytes → Except String Graph.CodeGraph

/-- `ChangedPaths` of `gonzalo-store-git/src/diff.rs`. -/
structure ChangedPaths where
  added : List String
  modified : List String
  deleted : List String

/-- What a run reads of the outside. `parse` is `parse_file`, with `none` for a file that
the worker crashed or hung on. -/
structure Source where
  tree : Entries
  rules : Rules
  parse : Language → String → Option Graph.CodeGraph
  parseVersion : Nat
  head : Option String
  changedPaths : String → Option ChangedPaths

/-- The files of a view under `graphs/`: its database, the commit it was indexed at and the
parse version it was built with. -/
structure ViewFiles where
  graph : SqliteGraphStore
  base : Option String
  version : Option Nat

/-- A view that has never been indexed. -/
def ViewFiles.new : ViewFiles := ⟨⟨[], [], []⟩, none, none⟩

/-- Why a run failed. -/
inductive IndexError where
  | store (error : CoreError)
  | reading (rel : String)
  | movedUnderUs
  | unparsed (path : String) (hash : ContentHash)
  | rehashed (path : String) (hash restored : ContentHash)

abbrev IndexProgram (α : Type) : Type := Program backendInterface IndexError α

/-! ## Staging -/

/-- `GraphStaging`. -/
structure GraphStaging where
  inserts : List (String × Graph.CodeGraph)
  removes : List String

/-- `GraphStaging::apply`. -/
def GraphStaging.apply (self : GraphStaging) (graph : SqliteGraphStore) : SqliteGraphStore :=
  self.removes.foldl (fun g rel => g.removePath rel)
    (self.inserts.foldl (fun g (rel, slice) => g.insert rel slice) graph)

/-- `DesiredView` with the staging it comes with. -/
structure DesiredView where
  entries : Std.ExtTreeMap String ContentHash compare
  files : Nat
  skippedPaths : List String
  ignored : IgnoredCounts
  unindexed : UnindexedCounts
  incremental : Bool
  staging : GraphStaging

namespace DesiredView

def start (entries : Std.ExtTreeMap String ContentHash compare) (incremental : Bool) :
    DesiredView where
  entries := entries
  files := 0
  skippedPaths := []
  ignored := ⟨0, 0⟩
  unindexed := ⟨0, ∅⟩
  incremental := incremental
  staging := ⟨[], []⟩

/-- The path goes, and the rows of its graph with it. -/
def remove (self : DesiredView) (rel : String) : DesiredView :=
  { self with
    entries := self.entries.erase rel
    staging := { self.staging with removes := self.staging.removes ++ [rel] } }

/-- `if desired.remove(rel).is_some() { staging.removes.push(rel) }`. -/
def dropPath (self : DesiredView) (rel : String) : DesiredView :=
  if self.entries.contains rel then self.remove rel else self

def insert (self : DesiredView) (rel : String) (slice : Graph.CodeGraph) (hash : ContentHash) :
    DesiredView :=
  { self with
    entries := self.entries.insert rel hash
    staging := { self.staging with inserts := self.staging.inserts ++ [(rel, slice)] } }

def skip (self : DesiredView) (rel : String) : DesiredView :=
  { self with skippedPaths := self.skippedPaths ++ [rel] }

def ignoreFile (self : DesiredView) : DesiredView :=
  { self with ignored := { self.ignored with files := self.ignored.files + 1 } }

def countFile (self : DesiredView) : DesiredView := { self with files := self.files + 1 }

def unindex (self : DesiredView) (extension : Option String) : DesiredView :=
  { self with unindexed := self.unindexed.record extension }

end DesiredView

section Drivers

variable [Blake3] [SliceJson]

/-- The address of a slice. -/
def sliceHash (slice : Graph.CodeGraph) : ContentHash := .of (SliceJson.toSliceBytes slice)

def putSlice (slice : Graph.CodeGraph) : IndexProgram ContentHash := do
  let answer ← @Program.request backendInterface _ (.putBlob (SliceJson.toSliceBytes slice))
  .ofExcept (Except.mapError IndexError.store answer)

/-! ## The drivers -/

/-- The loop body of `build_desired_full`. -/
def fullStep (source : Source) (view : DesiredView) (entry : List String × Language) :
    IndexProgram DesiredView :=
  match (Node.dir source.tree).readPath entry.1 with
  | none => .fail (.reading (relative entry.1))
  | some content =>
    match source.parse entry.2 content with
    | none => return view.skip (relative entry.1)
    | some slice => do
      let hash ← putSlice slice
      return view.insert (relative entry.1) slice hash

/-- `build_desired_full`. -/
def buildDesiredFull (source : Source) : IndexProgram DesiredView := do
  let sources := source.rules.sourceFiles source.tree
  let view ← sources.files.foldlM (fullStep source) (.start ∅ false)
  return { view with
    files := view.entries.size
    ignored := sources.ignored
    unindexed := sources.unindexed }

/-- The filter applied to what is carried over. -/
def pruneStale (source : Source) (current : Manifest) : DesiredView :=
  (source.rules.staleEntries current.entries.keys).foldl
    (fun view rel => (view.remove rel).ignoreFile) (.start current.entries true)

/-- The loop body of `build_desired_incremental` over added and modified paths. -/
def changeStep (source : Source) (view : DesiredView) (rel : String) :
    IndexProgram DesiredView :=
  if source.rules.filter.isIndexable rel then
    match (extension rel).bind Language.fromExtension with
    | none => return view.unindex (extension rel)
    | some language =>
      match (Node.dir source.tree).read rel with
      | none => return view.dropPath rel
      | some content =>
        match source.parse language content with
        | none => return view.skip rel
        | some slice => do
          let hash ← putSlice slice
          return (view.insert rel slice hash).countFile
  else return (view.dropPath rel).ignoreFile

/-- `build_desired_incremental`. -/
def buildDesiredIncremental (source : Source) (current : Manifest) (changed : ChangedPaths) :
    IndexProgram DesiredView := do
  let view ← (changed.added ++ changed.modified).foldlM (changeStep source)
    (pruneStale source current)
  return changed.deleted.foldl DesiredView.dropPath view

/-- The loop body of `ensure_slices_present`. -/
def ensureSlice (staging : GraphStaging) (restored : Nat) (entry : String × ContentHash) :
    IndexProgram Nat := do
  let answer ← @Program.request backendInterface _ (.hasBlob entry.2)
  let present ← .ofExcept (Except.mapError IndexError.store answer)
  if present then return restored
  match staging.inserts.find? fun insert => insert.1 = entry.1 with
  | none => .fail (.unparsed entry.1 entry.2)
  | some (_, slice) => do
    let put ← putSlice slice
    if put = entry.2 then return restored + 1
    else .fail (.rehashed entry.1 entry.2 put)

/-- `ensure_slices_present`: how many blobs were put again. -/
def ensureSlicesPresent (staging : GraphStaging) (wanted : List (String × ContentHash)) :
    IndexProgram Nat := wanted.foldlM (ensureSlice staging) 0

end Drivers

/-! ## The run -/

/-- `IndexSummary`. -/
structure IndexSummary where
  files : Nat
  added : Nat
  modified : Nat
  deleted : Nat
  skipped : Nat
  skippedPaths : List String
  ignored : IgnoredCounts
  unindexed : UnindexedCounts
  incremental : Bool

section Run

variable [Blake3] [SliceJson] [Serde] [ManifestJson]

/-- The record that a run puts: the first of its view, or the next after what it read. -/
def manifestRecord (key : RecordKey) (existing : Option Record) (manifest : Manifest) : Record where
  key := key
  kind := .graphManifest
  revision := match existing with
    | some record => record.revision.next manifest.toBody.bytes
    | none => .initial manifest.toBody.bytes
  parent := existing.map Record.revision
  body := manifest.toBody
  metadata := .new (.new "gonzalo-index") "gonzalo-index"
  links := []
  ancestors := []
  deletedAt := none
  deletedBlob := none
  deletedKind := none

/-- The base of an incremental run: none where the parser records something else by now. -/
def ViewFiles.recordedBase (self : ViewFiles) (source : Source) : Option String :=
  if self.version = some source.parseVersion then self.base else none

/-- The driver that the recorded base selects. -/
def buildDesired (source : Source) (files : ViewFiles) (current : Manifest) :
    IndexProgram DesiredView :=
  match (files.recordedBase source).bind source.changedPaths with
  | some changed => buildDesiredIncremental source current changed
  | none => buildDesiredFull source

/-- What the run makes of the manifest that it read. -/
def currentManifest (existing : Option Record) : Except CoreError Manifest :=
  match existing with
  | some record => Manifest.fromBody record.body
  | none => .ok ⟨∅⟩

/-- The paths to confirm after the commit, with their slices. -/
def newlyReferenced (recon : Reconciliation) : List (String × ContentHash) :=
  (recon.added ++ recon.modified).filterMap fun path =>
    (recon.manifest.entries[path]?).map fun hash => (path, hash)

/-- What the run leaves behind it once the manifest is committed. -/
def ViewFiles.advance (self : ViewFiles) (source : Source) (staging : GraphStaging) : ViewFiles where
  graph := staging.apply self.graph
  base := source.head <|> self.base
  version := some source.parseVersion

/-- `index_with_worker`. -/
def index (source : Source) (repo view : String) (files : ViewFiles) :
    IndexProgram (IndexSummary × ViewFiles) := do
  let key := Service.manifestKey repo view
  let existing ← (Service.get key).mapError IndexError.store
  let current ← .ofExcept ((currentManifest existing).mapError IndexError.store)
  let desired ← buildDesired source files current
  let recon := current.reconcile desired.entries
  let staging := { desired.staging with removes := desired.staging.removes ++ recon.deleted }
  match ← (Service.put (manifestRecord key existing recon.manifest)
      (existing.map Record.revision)).mapError IndexError.store with
  | .conflict _ => .fail .movedUnderUs
  | .committed _ =>
    let _ ← ensureSlicesPresent staging (newlyReferenced recon)
    return ({
      files := desired.files
      added := recon.added.length
      modified := recon.modified.length
      deleted := recon.deleted.length
      skipped := desired.skippedPaths.length
      skippedPaths := desired.skippedPaths
      ignored := desired.ignored
      unindexed := desired.unindexed
      incremental := desired.incremental }, files.advance source staging)

end Run

end Gonzalo.Index
