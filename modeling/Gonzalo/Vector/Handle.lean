import Gonzalo.Core.RevisionIdentity
import Gonzalo.Vector.Memory

/-!
# A handle of a vector index, alone

A commit of `gonzalo-vector/src/record_index.rs`, whatever other handles do between its
calls. `IndexView` is what the handle knows: which blobs are stored and which vectors the
manifests it has seen denote. Between two calls the vectors in memory are those of the
manifest last seen, also after a commit that failed.
-/

set_option autoImplicit false

namespace Gonzalo.Vector
open Gonzalo.Core Gonzalo.Lib

variable [Blake3]

/-- The vectors that a manifest's shards hold. -/
def Denotes (m : VectorManifest) (content : Vectors) : Prop :=
  ∀ id, ShardHolds m.dim m.entries[id]? (shardPart content m.shards id)

/-- Vectors whose shards can be written in the format's fields. -/
structure ContentFits (m : VectorManifest) (content : Vectors) : Prop where
  width : m.dim < 4294967296
  ids : ∀ key ∈ content, (asBytes key.id).length < 4294967296
  counts : ∀ id, (shardPart content m.shards id).toList.length < 4294967296

theorem ShardHolds.unique (injective : Function.Injective Blake3.hashHex) {dim : Nat}
    {hash : Option ContentHash} {part part' : Vectors} (holds : ShardHolds dim hash part)
    (holds' : ShardHolds dim hash part') : part = part' := by
  cases hash with
  | none => exact Eq.trans holds (Eq.symm holds')
  | some hash =>
    obtain ⟨bytes, entries, named, read, listed⟩ := holds
    obtain ⟨bytes', entries', named', read', listed'⟩ := holds'
    have same : bytes = bytes' :=
      injective (congrArg ContentHash.text (named.trans named'.symm))
    subst same
    cases read.symm.trans read'
    apply Std.ExtTreeMap.ext_getElem?
    intro key
    cases found : part[key]? with
    | some vector => exact ((listed' key vector).mp ((listed key vector).mpr found)).symm
    | none =>
      cases found' : part'[key]? with
      | none => rfl
      | some vector =>
        have stored := (listed key vector).mp ((listed' key vector).mpr found')
        rw [found] at stored
        cases stored

/-- A manifest denotes one set of vectors. -/
theorem Denotes.unique (injective : Function.Injective Blake3.hashHex) {m : VectorManifest}
    {content content' : Vectors} (denotes : Denotes m content) (denotes' : Denotes m content') :
    content = content' :=
  vectors_ext fun id => (denotes id).unique injective (denotes' id)

/-- What a manifest denotes has its dimension, and keys that fit. -/
theorem Denotes.entries {m : VectorManifest} {content : Vectors} (denotes : Denotes m content)
    {key : RecordKey} {vector : Components} (stored : content[key]? = some vector) :
    EntryFits m.dim (key, vector) := by
  have part : (shardPart content m.shards (shardOf key m.shards))[key]? = some vector :=
    shardPart_some.mpr ⟨rfl, stored⟩
  have holds := denotes (shardOf key m.shards)
  unfold ShardHolds at holds
  split at holds
  · rw [holds, Std.ExtTreeMap.getElem?_empty] at part
    cases part
  · obtain ⟨bytes, entries, -, read, listed⟩ := holds
    exact (decodeShard_fits read).entries _ ((listed key vector).mpr part)

theorem Denotes.uniform {m : VectorManifest} {content : Vectors} (denotes : Denotes m content) :
    Uniform m.dim content := fun _ _ stored => (denotes.entries stored).vector

omit [Blake3] in
/-- A list of entries in key order is encoded as it is. -/
theorem sorted_toList (part : Vectors) :
    part.toList.mergeSort (fun a b => decide (a.1 ≤ b.1)) = part.toList := by
  refine List.mergeSort_of_pairwise ?_
  refine (Std.ExtTreeMap.ordered_keys_toList (t := part)).imp ?_
  intro a b lt
  exact decide_eq_true (le_of_lt (compare_lt_iff_lt.mp lt))

/-- The blob written for a shard holds it. -/
theorem shardHolds_encode {dim : Nat} {part : Vectors} (fits : ShardFits dim part.toList) :
    ShardHolds dim (some (.of (encodeShard dim part.toList))) part := by
  refine ⟨_, part.toList, rfl, ?_, fun key vector =>
    Std.ExtTreeMap.mem_toList_iff_getElem?_eq_some⟩
  rw [decode_encode fits, sorted_toList]

omit [Blake3] in
theorem getElem?_withShards (m : VectorManifest)
    (blobs : Std.ExtTreeMap UInt16 ContentHash compare) (id : UInt16) :
    (withShards m blobs).entries[id]? = if id ∈ blobs then blobs[id]? else m.entries[id]? := by
  have lookup := @getElem?_insertAll _ _ _ _ _ _ blobs.toList m.entries blobs
    (fun key value member => Std.ExtTreeMap.mem_toList_iff_getElem?_eq_some.mp member) id
  have listed : id ∈ blobs.toList.map Prod.fst ↔ id ∈ blobs := by
    rw [Std.ExtTreeMap.map_fst_toList_eq_keys, Std.ExtTreeMap.mem_keys]
  simp only [listed] at lookup
  exact lookup

/-- The shards that were not touched, and blobs for those that were. -/
theorem Denotes.withShards {m : VectorManifest} {content : Vectors} (denotes : Denotes m content)
    {deltas : List Delta} {blobs : Std.ExtTreeMap UInt16 ContentHash compare}
    (touched : ∀ delta ∈ deltas, shardOf delta.key m.shards ∈ blobs)
    (written : ∀ (id : UInt16) (hash : ContentHash), blobs[id]? = some hash →
      hash = .of (encodeShard m.dim (shardPart (replay content deltas) m.shards id).toList))
    (entries : ∀ (key : RecordKey) (vector : Components),
      (replay content deltas)[key]? = some vector → EntryFits m.dim (key, vector))
    (fits : ContentFits m (replay content deltas)) :
    Denotes (withShards m blobs) (replay content deltas) := by
  intro id
  rw [getElem?_withShards]
  split
  next stored =>
    obtain ⟨hash, at_id⟩ := Option.isSome_iff_exists.mp
      (Std.ExtTreeMap.mem_iff_isSome_getElem?.mp stored)
    rw [at_id, written id hash at_id]
    refine shardHolds_encode ⟨fits.width, fits.counts id, fun entry member => ?_⟩
    have part := Std.ExtTreeMap.mem_toList_iff_getElem?_eq_some.mp member
    exact entries entry.1 entry.2 (shardPart_some.mp part).2
  next absent =>
    have clean : ∀ delta ∈ deltas, shardOf delta.key m.shards ≠ id :=
      fun delta member same => absent (same ▸ touched delta member)
    have same : shardPart (replay content deltas) m.shards id = shardPart content m.shards id :=
      shardPart_replay clean
    change ShardHolds m.dim m.entries[id]? (shardPart (replay content deltas) m.shards id)
    rw [same]
    exact denotes id

/-- A delta that the checks before a commit accept. -/
def Delta.Fits (dim : Nat) : Delta → Prop
  | upsert key vector => (asBytes key.ns).length < 65536 ∧
      (asBytes key.collection).length < 65536 ∧ vector.length = dim
  | remove _ => True

omit [Blake3] in
theorem Delta.Fits.wide {dim : Nat} {delta : Delta} (fits : delta.Fits dim) : delta.Wide dim := by
  cases delta with
  | upsert key vector => exact fits.2.2
  | remove key => exact trivial

section Commit

variable [Serde]

/-- A manifest record with all its shards stored, and the vectors these hold. -/
structure Standing (present : ContentHash → Prop) (revision : Revision) (body : Body)
    (m : VectorManifest) (content : Vectors) : Prop where
  hash : revision.hash = .of body.bytes
  decodes : VectorManifest.fromBody body = .ok m
  stored : ∀ (id : UInt16) (hash : ContentHash), m.entries[id]? = some hash → present hash
  denotes : Denotes m content

/-- What the handle knows: which blobs are stored, which manifest records it has seen, the
batch it is committing, and what the current call has committed. -/
structure IndexView where
  present : ContentHash → Prop
  seen : Revision → Body → Vectors → Prop
  batch : List Delta
  own : List (Revision × Body)
  standing : ∀ (revision : Revision) (body : Body) (content : Vectors),
    seen revision body content → ∃ m, Standing present revision body m content

/-- Nothing known is forgotten. -/
structure Learns (v v' : IndexView) : Prop where
  present : ∀ hash, v.present hash → v'.present hash
  seen : ∀ revision body content, v.seen revision body content → v'.seen revision body content
  batch : v'.batch = v.batch

/-- As `Learns`, and nothing was committed. -/
structure Later (v v' : IndexView) : Prop extends Learns v v' where
  own : v'.own = v.own

theorem Later.refl (v : IndexView) : Later v v := ⟨⟨fun _ => id, fun _ _ _ => id, rfl⟩, rfl⟩

theorem Learns.trans {v v' v'' : IndexView} (first : Learns v v') (second : Learns v' v'') :
    Learns v v'' where
  present hash known := second.present hash (first.present hash known)
  seen revision body content known :=
    second.seen revision body content (first.seen revision body content known)
  batch := second.batch.trans first.batch

theorem Later.trans {v v' v'' : IndexView} (first : Later v v') (second : Later v' v'') :
    Later v v'' := ⟨first.toLearns.trans second.toLearns, second.own.trans first.own⟩

/-- What the manifest record of the expected revision denotes. -/
def Base (v : IndexView) : Option Revision → Vectors → Prop
  | none, content => content = ∅
  | some revision, content => ∃ body, v.seen revision body content

/-- What a call commits. -/
def committedBy : (req : BackendReq) → req.Ans → List (Revision × Body)
  | .store (.put record _), .ok (.committed revision) => [(revision, record.body)]
  | _, _ => []

/-- A live record at the key, which is a manifest. -/
def Found (key : RecordKey) (v : IndexView) (record : Record) : Prop :=
  record.key = key ∧ record.isTombstone = false ∧
    ∃ content, v.seen record.revision record.body content

end Commit

end Gonzalo.Vector
