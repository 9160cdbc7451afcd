import Gonzalo.Core.Undelete
import Gonzalo.Git.Repo

/-!
# The git store

The operations of `gonzalo-store-git/src/lib.rs` as programs over the steps of a
repository: a locked `put`, `put_raw`, `delete_as` and `purge`, each of which moves one
file and commits it, and `pull`, which fast-forwards or merges record by record.

The clock is an argument. The source writes the tail of `commit_file` twice, in
`commit_file` and in `commit_removal`; here it is `commitIndex`.
-/

set_option autoImplicit false

namespace Gonzalo.Git
open Gonzalo.Core Gonzalo.Lib

/-- A record that diverged on both sides of a pull and could not be merged. -/
structure PullConflict where
  key : RecordKey
  localRec : Record
  remoteRec : Record
  deriving DecidableEq

/-- What a pull did. -/
structure PullReport where
  fastForwarded : Bool := false
  advanced : List RecordKey := []
  merged : List RecordKey := []
  conflicts : List PullConflict := []
  deriving DecidableEq

/-! ## Paths -/

/-- `rel_path`, and `path_for` below the root of the repository. -/
def relPath (key : RecordKey) : Path := Fs.recordPath key

/-- `key_from_path`. -/
def keyFromPath : Path → Option RecordKey
  | [ns, coll, file] =>
    (stripSuffix file ".json").map fun id =>
      ⟨decodeSegment ns, decodeSegment coll, decodeSegment id⟩
  | _ => none

theorem relPath_injective {key key' : RecordKey} (nested : Fs.Nested key)
    (same : relPath key = relPath key') : key = key' := Fs.recordPath_injective nested same

/-- A record's path is read as its key, if the namespace and the collection are names. -/
theorem keyFromPath_relPath {key : RecordKey} (nested : Fs.Nested key) :
    keyFromPath (relPath key) = some key := by
  have stripped : stripSuffix (Fs.recordFile key) ".json" = some (segment key.id) :=
    stripSuffix_eq_some.mpr rfl
  rw [relPath, Fs.recordPath_eq, Fs.recordDirs_nested nested]
  simp only [List.cons_append, List.nil_append, keyFromPath, stripped, Option.map_some,
    decodeSegment_segment]

theorem rustKey_nested : Fs.Nested rustKey := by
  constructor <;> decide

/-- The path of any other record is too short. -/
theorem keyFromPath_relPath_short {key : RecordKey} (short : ¬ Fs.Nested key) :
    keyFromPath (relPath key) = none := by
  have length : (relPath key).length ≠ 3 := by
    rw [relPath, Fs.recordPath_eq, List.length_append, List.length_singleton]
    intro deep
    exact short (Fs.nested_of_length (by omega))
  unfold keyFromPath
  split
  next whole =>
    rw [whole] at length
    exact absurd rfl length
  next => rfl

/-! ## Operations -/

variable {β : Type} [RecordJson β]

/-- `read`. -/
def read (key : RecordKey) : GitProgram β (Option Record) := do
  match ← step (.readFile (relPath key)) with
  | none => pure none
  | some contents =>
    let record ← Program.ofExcept (decode contents)
    pure (some record)

section Writes

omit [RecordJson β]

/-- `write_atomic`. -/
def writeAtomic (path : Path) (contents : β) : GitProgram β Unit := do
  step (.writeTemp path contents)
  step (.rename path contents)
  step (.fsyncDir path)

/-- The commit HEAD names, `none` also when it cannot be read. -/
def headParent : GitProgram β (Option (Commit β)) := do
  match ← attempt .head with
  | .ok (some tip) =>
    match ← attempt (.findCommit tip) with
    | .ok _ => pure (some tip)
    | .error _ => pure none
  | _ => pure none

/-- The end of `commit_file` and of `commit_removal`. -/
def commitIndex (index : Tree β) (message : String) : GitProgram β Unit := do
  step (.writeIndex index)
  step (.writeTree index)
  step (.findTree index)
  step .signature
  let parent ← headParent
  step (.commit none message index parent.toList)

/-- `commit_file`. -/
def commitFile (rel : Path) (message : String) : GitProgram β Unit := do
  step .openRepo
  let index ← step .readIndex
  let contents ← step (.addPath rel)
  commitIndex (index.insert rel contents) message

/-- `commit_removal`. -/
def commitRemoval (rel : Path) (message : String) : GitProgram β Unit := do
  step .openRepo
  let index ← step .readIndex
  step .editIndex
  commitIndex (index.erase rel) message

/-- `remove_and_commit`: a file that is not there counts as removed. -/
def removeAndCommit (key : RecordKey) (message : String) : GitProgram β Unit := do
  step (.removeFile (relPath key))
  commitRemoval (relPath key) message

end Writes

/-- `write_and_commit`. -/
def writeAndCommit (record : Record) (message : String) : GitProgram β Unit := do
  let rel := relPath record.key
  step (.createDir rel)
  let contents ← Program.ofExcept (encode record)
  writeAtomic rel contents
  commitFile rel message

/-- `put_locked`: `put` with `plan_put`, `put_raw` with `plan_put_raw`. -/
def putLocked (record : Record) (expected : Option Revision) (plan : MemStore.PutPlanner)
    (nowMs : Int) (cap : Nat) : GitProgram β PutResult := do
  step .lock
  let current ← read record.key
  match plan current record expected nowMs cap with
  | .write stored =>
    writeAndCommit stored ("put " ++ record.key.display)
    pure (.committed stored.revision)
  | .conflict conflict => pure (.conflict conflict)
  | .notFound => .fail (.notFound record.key)
  | .rejected reason => .fail (.invalid reason)

/-- `delete_as`. -/
def deleteAs [Blake3] (key : RecordKey) (expected : Option Revision) (author : Option Identity)
    (nowMs : Int) (cap : Nat) : GitProgram β DeleteResult := do
  step .lock
  let current ← read key
  match planDelete current expected nowMs cap author with
  | .write tombstone =>
    writeAndCommit tombstone ("delete " ++ key.display)
    pure .deleted
  | .noop => pure .deleted
  | .conflict conflict => pure (.conflict conflict)

/-- `purge`. -/
def purge (key : RecordKey) (expected : Revision) : GitProgram β DeleteResult := do
  step .lock
  let current ← read key
  match planPurge current expected with
  | .remove =>
    removeAndCommit key ("purge " ++ key.display)
    pure .deleted
  | .noop => pure .deleted
  | .conflict conflict => pure (.conflict conflict)

section Pull

omit [RecordJson β] in
/-- `tree_blob`: a path that cannot be looked up counts as absent. -/
def treeBlob (tree : Tree β) (path : Path) : GitProgram β (Option β) := do
  match ← attempt (.getPath tree path) with
  | .ok (some contents) =>
    step (.readObject contents)
    pure (some contents)
  | _ => pure none

/-- `record_at`. -/
def recordAt (tree : Option (Tree β)) (path : Path) : GitProgram β (Option Record) := do
  match tree with
  | none => pure none
  | some tree =>
    match ← treeBlob tree path with
    | some contents =>
      let record ← Program.ofExcept (decode contents)
      pure (some record)
    | none => pure none

/-- The merged index so far, and the report. -/
structure MergeState (β : Type) where
  index : Tree β
  report : PullReport

/-- `stage_record`, with the report to go on with. -/
def stageRecord (s : MergeState β) (path : Path) (record : Record) (report : PullReport) :
    GitProgram β (MergeState β) := do
  let contents ← Program.ofExcept (encode record)
  step .editIndex
  pure ⟨s.index.insert path contents, report⟩

/-- `report.conflicts.push(..)`. -/
def PullReport.conflict (self : PullReport) (key : RecordKey) (localRec remoteRec : Record) :
    PullReport :=
  { self with conflicts := self.conflicts ++ [⟨key, localRec, remoteRec⟩] }

variable [Blake3] [Serde]

omit [RecordJson β] [Serde] in
/-- `merged_record`. -/
def mergedRecord (localRec remoteRec : Record) (body : Body) (cap : Nat) : Record :=
  reconciledRecord localRec remoteRec body (.new "gonzalo-merge") "git-pull" cap

/-- The arms of `merge_non_ff` for a record present on both sides. -/
def mergeRecords (base : Option (Tree β)) (cap : Nat) (s : MergeState β) (path : Path)
    (key : RecordKey) (localRec remoteRec : Record) : GitProgram β (MergeState β) :=
  if localRec.revision = remoteRec.revision then pure s
  else if localRec.revision ∈ remoteRec.ancestors then
    stageRecord s path remoteRec { s.report with advanced := s.report.advanced ++ [key] }
  else if remoteRec.revision ∈ localRec.ancestors then pure s
  else if localRec.isTombstone && remoteRec.isTombstone then
    stageRecord s path (tombstoneWinner localRec remoteRec cap)
      { s.report with merged := s.report.merged ++ [key] }
  else if localRec.isTombstone || remoteRec.isTombstone then
    pure { s with report := s.report.conflict key localRec remoteRec }
  else if localRec.body ≠ remoteRec.body then do
    let found ← recordAt base path
    match merge localRec.kind.mergeClass ((found.map Record.body).getD (.inline [])) localRec.body
      remoteRec.body with
    | .merged body =>
      stageRecord s path (mergedRecord localRec remoteRec body cap)
        { s.report with merged := s.report.merged ++ [key] }
    | .needsResolution => pure { s with report := s.report.conflict key localRec remoteRec }
  else pure s

/-- The body of the loop of `merge_non_ff`. -/
def mergeDelta (base : Option (Tree β)) (localTree remoteTree : Tree β)
    (localChanged : List Path) (cap : Nat) (s : MergeState β) (delta : Delta) :
    GitProgram β (MergeState β) :=
  let path := delta.path
  if path ∉ localChanged then
    if delta.deleted then do
      step .editIndex
      pure { s with index := s.index.erase path }
    else do
      match ← treeBlob remoteTree path with
      | some contents =>
        step .editIndex
        pure { s with index := s.index.insert path contents }
      | none => pure s
  else
    match keyFromPath path with
    | none => pure s
    | some key => do
      let localRec ← recordAt (some localTree) path
      let remoteRec ← recordAt (some remoteTree) path
      match localRec, remoteRec with
      | some l, some r => mergeRecords base cap s path key l r
      | some _, none => pure s
      | none, some r => stageRecord s path r s.report
      | none, none => pure s

omit [RecordJson β] [Blake3] [Serde] in
/-- The tree of the merge base; none for unrelated histories. -/
def mergeBaseTree (ours theirs : Commit β) : GitProgram β (Option (Tree β)) := do
  match ← attempt (.mergeBase ours theirs) with
  | .ok (some base) =>
    step (.findCommit base)
    step (.findTree base.tree)
    pure (some base.tree)
  | _ => pure none

/-- The part of `merge_non_ff` that reads: the reconciled index and the report. -/
def mergeTrees (base : Option (Tree β)) (localTree remoteTree : Tree β) (cap : Nat) :
    GitProgram β (MergeState β) := do
  let localDeltas ← step (.diff base localTree)
  let remoteDeltas ← step (.diff base remoteTree)
  remoteDeltas.foldlM
    (mergeDelta base localTree remoteTree (localDeltas.map Delta.path) cap) ⟨localTree, {}⟩

/-- `merge_non_ff`. -/
def mergeNonFf (remote branch : String) (theirs : Commit β) (cap : Nat) :
    GitProgram β PullReport := do
  match ← step .head with
  | none => .fail (.backend "local HEAD is unborn")
  | some ours =>
    step (.findCommit ours)
    step (.findCommit theirs)
    step (.findTree ours.tree)
    step (.findTree theirs.tree)
    let base ← mergeBaseTree ours theirs
    let _ ← step .readIndex
    step .editIndex
    let merged ← mergeTrees base ours.tree theirs.tree cap
    step (.writeTree merged.index)
    step (.findTree merged.index)
    step (.checkoutTree merged.index)
    step .signature
    step (.commit (some branch) ("merge " ++ remote ++ "/" ++ branch) merged.index [ours, theirs])
    step (.setHead branch)
    pure merged.report

/-- `git_pull`. -/
def gitPull (remote branch : String) (cap : Nat) : GitProgram β PullReport := do
  step .lock
  step .openRepo
  step (.findRemote remote)
  step (.fetch remote branch)
  let theirs ← step .fetchHead
  match ← step (.mergeAnalysis theirs) with
  | .upToDate => pure {}
  | .fastForward =>
    step (.findReference branch)
    step (.setTarget branch theirs)
    step (.setHead branch)
    step .checkoutHead
    pure { fastForwarded := true }
  | .normal => mergeNonFf remote branch theirs cap

end Pull

end Gonzalo.Git
