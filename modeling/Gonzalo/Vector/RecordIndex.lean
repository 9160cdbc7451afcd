import Gonzalo.Core.ManifestJson
import Gonzalo.Core.Undelete
import Gonzalo.Lib.Stateful
import Gonzalo.Vector.Shard

/-!
# The durable vector index

`gonzalo-vector/src/record_index.rs`: a handle on an index whose shards are blobs named by
one manifest record. A handle keeps the vectors in memory, and with them the manifest
record they agree with. A commit stages its shards from memory, writes the manifest under
the revision it last saw, and after a conflict loads what the winner changed.
-/

set_option autoImplicit false

namespace Gonzalo.Vector
open Gonzalo.Core Gonzalo.Lib

/-- What a `MemoryVectorIndex` holds. -/
abbrev Vectors : Type := Std.ExtTreeMap RecordKey Components compare

/-- `Delta`. -/
inductive Delta where
  | upsert (key : RecordKey) (vector : Components)
  | remove (key : RecordKey)

/-- The key a delta is about. -/
def Delta.key : Delta → RecordKey
  | upsert key _ => key
  | remove key => key

/-- `NonZeroU16`. -/
abbrev ShardCount : Type := { n : UInt16 // n ≠ 0 }

/-- `RecordVectorIndex`. -/
structure RecordVectorIndex where
  key : RecordKey
  space : String
  dim : Nat
  shards : ShardCount
  inner : Vectors
  metadata : Meta
  lastSeen : Option Record

/-- `SHARD_READ_CONCURRENCY`. -/
def shardReadConcurrency : Nat := 16

/-- `MAX_COMMIT_ATTEMPTS`. -/
def maxCommitAttempts : Nat := 5

abbrev IndexM (α : Type) : Type := Stateful backendInterface RecordVectorIndex CoreError α

/-! ## Calls of the store -/

def askBackend (req : BackendReq) : IndexM req.Ans :=
  @Stateful.ask backendInterface RecordVectorIndex CoreError req

def putBlob (content : Bytes) : IndexM ContentHash :=
  askBackend (.putBlob content) >>= .ofExcept

def getBlob (hash : ContentHash) : IndexM (Option Bytes) :=
  askBackend (.getBlob hash) >>= .ofExcept

def hasBlob (hash : ContentHash) : IndexM Bool :=
  askBackend (.hasBlob hash) >>= .ofExcept

def storeGet (key : RecordKey) : IndexM (Option Record) :=
  askBackend (.store (.get key)) >>= .ofExcept

def storePut (record : Record) (expected : Option Revision) : IndexM PutResult :=
  askBackend (.store (.put record expected)) >>= .ofExcept

/-! ## The vectors in memory -/

/-- `stored_dim`. All vectors in memory have one length. -/
def storedDim (map : Vectors) : Option Nat := map.toList.head?.map fun entry => entry.2.length

/-- `check_dim`. -/
def checkDim (map : Vectors) (incoming : Nat) : Except CoreError Unit :=
  match storedDim map with
  | some expected =>
    if incoming ≠ expected then
      .error (.backend ("vector dimension mismatch: expected " ++ toString expected ++ ", got " ++
        toString incoming))
    else .ok ()
  | none => .ok ()

/-- `MemoryVectorIndex::upsert`. -/
def upsertInner (key : RecordKey) (vector : Components) : IndexM Unit := do
  let self ← Stateful.get
  Stateful.ofExcept (checkDim self.inner vector.length)
  Stateful.modify fun self => { self with inner := self.inner.insert key vector }

/-- `MemoryVectorIndex::remove`. -/
def removeInner (key : RecordKey) : IndexM Unit :=
  Stateful.modify fun self => { self with inner := self.inner.erase key }

variable [Blake3]

/-- The vectors of a shard. -/
def shardPart (inner : Vectors) (shards : UInt16) (id : UInt16) : Vectors :=
  inner.filter fun key _ => decide (shardOf key shards = id)

/-- `collect_where`, for a shard. -/
def collectShard (self : RecordVectorIndex) (id : UInt16) : List Entry :=
  (shardPart self.inner self.shards id).toList

/-- `clear_shard`. -/
def clearShard (id : UInt16) : IndexM Unit := do
  let self ← Stateful.get
  (collectShard self id).foldlM (fun _ entry => removeInner entry.1) ()

/-- `apply_shard_bytes`. -/
def applyShardBytes (id : UInt16) (bytes : Bytes) : IndexM Unit := do
  let shard ← Stateful.ofExcept (decodeShard bytes)
  let self ← Stateful.get
  if shard.1 ≠ self.dim then
    Stateful.throw (.backend ("vector index " ++ self.key.display ++ ": shard " ++ toString id ++
      " has dimension " ++ toString shard.1 ++ ", manifest says " ++ toString self.dim))
  else do
    clearShard id
    shard.2.foldlM (fun _ entry => upsertInner entry.1 entry.2) ()

/-- `missing_blob_error`. -/
def missingBlobError (key : RecordKey) (id : UInt16) (hash : ContentHash) : CoreError :=
  .backend ("vector index " ++ key.display ++ ": shard " ++ toString id ++ " names blob " ++
    hash.text ++ " but it is absent")

/-- `hydrate_shard`. -/
def hydrateShard (manifest : VectorManifest) (id : UInt16) : IndexM Unit :=
  match manifest.entries[id]? with
  | none => clearShard id
  | some hash => do
    let found ← getBlob hash
    match found with
    | some bytes => applyShardBytes id bytes
    | none => do
      let self ← Stateful.get
      Stateful.throw (missingBlobError self.key id hash)

/-- `apply`. -/
def applyDeltas (deltas : List Delta) : IndexM Unit :=
  deltas.foldlM (fun _ delta => match delta with
    | .upsert key vector => upsertInner key vector
    | .remove key => removeInner key) ()

/-! ## A commit -/

/-- What one delta does to a staged shard. -/
def stageDelta (shards id : UInt16) (staged : Vectors) : Delta → Vectors
  | .upsert key vector => if shardOf key shards = id then staged.insert key vector else staged
  | .remove key => if shardOf key shards = id then staged.erase key else staged

/-- `stage_shard`. -/
def stageShard (self : RecordVectorIndex) (id : UInt16) (deltas : List Delta) : List Entry :=
  (deltas.foldl (stageDelta self.shards id) (shardPart self.inner self.shards id)).toList

/-- The shards that the deltas touch. -/
def dirtyShards (shards : UInt16) (deltas : List Delta) : List UInt16 :=
  (deltas.map fun delta => shardOf delta.key shards).dedup.mergeSort fun a b => decide (a ≤ b)

/-- The shards a conflict reloads: those touched, and those the winner changed. -/
def toHydrate (dirty : List UInt16)
    (base winner : Std.ExtTreeMap UInt16 ContentHash compare) : List UInt16 :=
  (dirty ++ (base.keys ++ winner.keys).filter fun id => decide (base[id]? ≠ winner[id]?)).dedup.mergeSort
    fun a b => decide (a ≤ b)

/-- `VectorManifest::new`. -/
def newManifest (space : String) (dim : Nat) (shards : UInt16) : VectorManifest :=
  ⟨space, dim, shards, ∅⟩

/-- `check_space_and_dim`. -/
def checkSpaceAndDim [DebugFmt] (key : RecordKey) (manifest : VectorManifest) (space : String)
    (dim : Nat) : Except CoreError Unit :=
  if manifest.space ≠ space then
    .error (.invalid ("vector index " ++ key.display ++ ": stored embedding space is " ++
      DebugFmt.debug manifest.space ++ ", opened as " ++ DebugFmt.debug space))
  else if manifest.dim ≠ dim then
    .error (.invalid ("vector index " ++ key.display ++ ": stored dimension is " ++
      toString manifest.dim ++ ", opened as " ++ toString dim))
  else .ok ()

/-- The upload of the touched shards. -/
def putShards (deltas : List Delta) (dirty : List UInt16) :
    IndexM (Std.ExtTreeMap UInt16 ContentHash compare) :=
  dirty.foldlM (fun blobs id => do
    let self ← Stateful.get
    let hash ← putBlob (encodeShard self.dim (stageShard self id deltas))
    pure (blobs.insert id hash)) ∅

/-- `verify_shard_blobs`. -/
def verifyShardBlobs (written : Std.ExtTreeMap UInt16 ContentHash compare) : IndexM Unit :=
  written.toList.foldlM (fun _ entry => do
    let present ← hasBlob entry.2
    if present then pure ()
    else do
      let self ← Stateful.get
      let restored ← putBlob (encodeShard self.dim (collectShard self entry.1))
      if restored ≠ entry.2 then
        Stateful.throw (.backend ("vector index " ++ self.key.display ++
          ": the manifest commit already landed, but shard " ++ toString entry.1 ++
          " was swept and the re-encoded bytes hash to " ++ restored.text ++
          " rather than the committed " ++ entry.2.text ++ "; the index is unrecoverable"))
      else pure ()) ()

section Commit

variable [DebugFmt] [Serde] [ManifestJson]

/-- The manifest a commit starts from. -/
def baseManifest (self : RecordVectorIndex) : Except CoreError VectorManifest :=
  match self.lastSeen with
  | some record => VectorManifest.fromBody record.body
  | none => .ok (newManifest self.space self.dim self.shards)

/-- The record a commit puts. -/
def commitRecord (self : RecordVectorIndex) (manifest : VectorManifest) : Record :=
  match self.lastSeen with
  | some current => current.update manifest.toBody self.metadata
  | none => .create self.key .vectorManifest manifest.toBody self.metadata

omit [Blake3] [DebugFmt] [Serde] [ManifestJson] in
/-- The manifest with the uploaded shards in it. -/
def withShards (manifest : VectorManifest) (blobs : Std.ExtTreeMap UInt16 ContentHash compare) :
    VectorManifest :=
  { manifest with
    entries := blobs.toList.foldl (fun entries entry => entries.insert entry.1 entry.2)
      manifest.entries }

/-- After the put has committed. -/
def landed (deltas : List Delta) (record : Record) (revision : Revision)
    (blobs : Std.ExtTreeMap UInt16 ContentHash compare) : IndexM Unit := do
  applyDeltas deltas
  Stateful.modify fun self => { self with lastSeen := some { record with revision := revision } }
  verifyShardBlobs blobs

/-- After a conflict: memory follows the winner's manifest. -/
def reload (dirty : List UInt16) (base : Std.ExtTreeMap UInt16 ContentHash compare) :
    IndexM Unit := do
  let self ← Stateful.get
  let found ← storeGet self.key
  match found with
  | none =>
    Stateful.throw (.backend ("vector index " ++ self.key.display ++
      ": manifest vanished mid-commit"))
  | some winner => do
    let manifest ← Stateful.ofExcept (VectorManifest.fromBody winner.body)
    Stateful.ofExcept (checkSpaceAndDim self.key manifest self.space self.dim)
    if manifest.shards ≠ self.shards then
      Stateful.throw (.invalid ("vector index " ++ self.key.display ++ ": stored shard count is " ++
        toString manifest.shards ++ ", opened as " ++ toString self.shards.1))
    else do
      (toHydrate dirty base manifest.entries).foldlM (fun _ id => hydrateShard manifest id) ()
      Stateful.modify fun self => { self with lastSeen := some winner }

/-- The loop of `commit`, with the attempts that are left. -/
def commitLoop (deltas : List Delta) (dirty : List UInt16) : Nat → IndexM Unit
  | 0 => Stateful.throw (.backend "the loop returns on the final attempt")
  | attempts + 1 => do
    let self ← Stateful.get
    let base ← Stateful.ofExcept (baseManifest self)
    let blobs ← putShards deltas dirty
    let record := commitRecord self (withShards base blobs)
    let result ← storePut record (self.lastSeen.map Record.revision)
    match result with
    | .committed revision => landed deltas record revision blobs
    | .conflict _ =>
      if attempts = 0 then
        Stateful.throw (.backend ("vector index " ++ self.key.display ++ ": gave up after " ++
          toString maxCommitAttempts ++ " conflicting commits"))
      else do
        reload dirty base.entries
        commitLoop deltas dirty attempts

/-- `commit`. -/
def commit (deltas : List Delta) : IndexM Unit :=
  if deltas.isEmpty then pure ()
  else do
    let self ← Stateful.get
    commitLoop deltas (dirtyShards self.shards deltas) maxCommitAttempts

/-! ## Opening a handle -/

/-- One read of the fetch phase. -/
def fetchShard (manifest : VectorManifest) (id : UInt16) : IndexM (UInt16 × Bytes) := do
  let self ← Stateful.get
  let hash := (manifest.entries[id]?).getD ⟨""⟩
  let found ← getBlob hash
  match found with
  | some bytes => pure (id, bytes)
  | none => Stateful.throw (missingBlobError self.key id hash)

/-- One batch of shards: all reads, in the order `schedule` gives them, and then all of
them applied. -/
def openBatch (schedule : List UInt16 → List UInt16) (manifest : VectorManifest)
    (batch : List UInt16) : IndexM Unit := do
  let fetched ← (schedule batch).foldlM (fun fetched id => do
    let shard ← fetchShard manifest id
    pure (fetched ++ [shard])) ([] : List (UInt16 × Bytes))
  fetched.foldlM (fun _ shard => applyShardBytes shard.1 shard.2) ()

/-- All batches. -/
def openShards (schedule : List UInt16 → List UInt16) (manifest : VectorManifest) : IndexM Unit :=
  (manifest.entries.keys.toChunks shardReadConcurrency).foldlM
    (fun _ batch => openBatch schedule manifest batch) ()

/-- The manifest of an existing record, checked against how the index is opened. -/
def checkExisting (key : RecordKey) (space : String) (dim : Nat) (shards : ShardCount) :
    Option Record → Except CoreError (ShardCount × Option VectorManifest)
  | none => .ok (shards, none)
  | some record => do
    let manifest ← VectorManifest.fromBody record.body
    checkSpaceAndDim key manifest space dim
    if nonzero : manifest.shards ≠ 0 then pure (⟨manifest.shards, nonzero⟩, some manifest)
    else .error (.backend ("vector index " ++ key.display ++ ": manifest declares 0 shards"))

omit [Blake3] [DebugFmt] [Serde] [ManifestJson] in
/-- What stands at the key: a tombstone without a restore window counts as nothing. -/
def openRaw (key : RecordKey) : Option Record → Except CoreError (Option Record)
  | some record =>
    if record.isTombstone then
      if record.deletedKind.any RecordKind.isManifest then
        .error (.invalid ("vector index " ++ key.display ++ ": " ++
          manifestTombstoneRecreateRejected))
      else .ok none
    else .ok (some record)
  | none => .ok none

/-- A handle before its shards are loaded. -/
def emptyHandle (key : RecordKey) (space : String) (dim : Nat) (shards : ShardCount)
    (existing : Option Record) : RecordVectorIndex where
  key := key
  space := space
  dim := dim
  shards := shards
  inner := ∅
  metadata := .new (.new "gonzalo-vector") "gonzalo-vector"
  lastSeen := existing

/-- `open_with_shards`. -/
def openWithShards (schedule : List UInt16 → List UInt16) (key : RecordKey) (space : String)
    (dim : Nat) (shards : ShardCount) : BackendProgram RecordVectorIndex := do
  let found ← callGetRaw key
  let existing ← Program.ofExcept (openRaw key found)
  let checked ← Program.ofExcept (checkExisting key space dim shards existing)
  let index := emptyHandle key space dim checked.1 existing
  match checked.2 with
  | none => pure index
  | some manifest => do
    let (index, result) ← (openShards schedule manifest).run index
    Program.ofExcept (result.map fun _ => index)

end Commit

/-! ## The calls of a handle -/

/-- The writes of `VectorIndex`. -/
inductive VectorOp where
  | upsert (key : RecordKey) (vector : Components)
  | remove (key : RecordKey)
  | upsertMany (items : List Entry)

/-- The batch that a write commits. -/
def VectorOp.deltas : VectorOp → List Delta
  | upsert key vector => [.upsert key vector]
  | remove key => [.remove key]
  | upsertMany items => items.map fun item => .upsert item.1 item.2

/-- `check_key_len`. -/
def checkKeyLen (key : RecordKey) : Except CoreError Unit :=
  if 65535 < (asBytes key.ns).length ∨ 65535 < (asBytes key.collection).length then
    .error (.invalid ("vector index: key " ++ key.display ++
      " has a namespace or collection longer than 64 KiB"))
  else .ok ()

/-- The check of one item of `upsert_many`. -/
def checkItem (self : RecordVectorIndex) (item : Entry) : Except CoreError Unit := do
  checkKeyLen item.1
  if item.2.length ≠ self.dim then
    .error (.invalid ("vector index " ++ self.key.display ++ ": " ++ item.1.display ++
      " has dimension " ++ toString item.2.length ++ ", index is " ++ toString self.dim))
  else .ok ()

/-- The checks before a commit. -/
def checkOp (self : RecordVectorIndex) : VectorOp → Except CoreError Unit
  | .upsert key vector => do
    checkKeyLen key
    if vector.length ≠ self.dim then
      .error (.invalid ("vector index " ++ self.key.display ++ ": expected dimension " ++
        toString self.dim ++ ", got " ++ toString vector.length))
    else .ok ()
  | .remove _ => .ok ()
  | .upsertMany items => items.forM (checkItem self)

/-- A write of a handle. -/
def perform [DebugFmt] [Serde] [ManifestJson] (op : VectorOp) : IndexM Unit := do
  let self ← Stateful.get
  Stateful.ofExcept (checkOp self op)
  commit op.deltas

end Gonzalo.Vector
