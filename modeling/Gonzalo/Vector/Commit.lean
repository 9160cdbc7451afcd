import Gonzalo.Vector.Handle

/-!
# One handle among others

`open_with_shards` and `commit` of `gonzalo-vector/src/record_index.rs`, call by call, with
anything the contract allows happening in between. Between two calls the vectors in memory
are those of the manifest last seen, also after a commit that failed.
-/

set_option autoImplicit false

namespace Gonzalo.Vector
open Gonzalo.Core Gonzalo.Lib

variable [Blake3] [Serde] {key : RecordKey} {v : IndexView} {s : RecordVectorIndex}

/-- The handle's memory is what the manifest it last saw denotes. -/
structure Follows (key : RecordKey) (v : IndexView) (h : RecordVectorIndex) (m : VectorManifest) :
    Prop where
  keyed : h.key = key
  space : m.space = h.space
  dim : m.dim = h.dim
  shards : m.shards = h.shards.1
  base : baseManifest h = .ok m
  denotes : Denotes m h.inner
  stored : ∀ (id : UInt16) (hash : ContentHash), m.entries[id]? = some hash → v.present hash
  seen : ∀ record, h.lastSeen = some record →
    record.key = key ∧ record.isTombstone = false ∧ v.seen record.revision record.body h.inner
  fresh : h.lastSeen = none → h.inner = ∅

theorem Follows.uniform {m : VectorManifest} (follows : Follows key v s m) :
    Uniform s.dim s.inner := follows.dim ▸ follows.denotes.uniform

/-- What the handle expects is what its memory holds. -/
theorem Follows.expected {m : VectorManifest} (follows : Follows key v s m) :
    Base v (s.lastSeen.map Record.revision) s.inner := by
  cases last : s.lastSeen with
  | none => exact follows.fresh last
  | some record => exact ⟨record.body, (follows.seen record last).2.2⟩

/-- The blobs of the shards uploaded so far. -/
def Uploaded (deltas : List Delta) (s : RecordVectorIndex) (v : IndexView)
    (blobs : Std.ExtTreeMap UInt16 ContentHash compare) : Prop :=
  ∀ (id : UInt16) (hash : ContentHash), blobs[id]? = some hash →
    hash = .of (encodeShard s.dim (stageShard s id deltas)) ∧ v.present hash

omit [Serde] in
/-- The bytes of a shard's blob are those that hold it. -/
theorem ShardHolds.read (injective : Function.Injective Blake3.hashHex) {dim : Nat}
    {hash : ContentHash} {part : Vectors} (holds : ShardHolds dim (some hash) part)
    {bytes : Bytes} (named : ContentHash.of bytes = hash) :
    ∃ entries, decodeShard bytes = .ok (dim, entries) ∧
      ∀ (key : RecordKey) (vector : Components),
        (key, vector) ∈ entries ↔ part[key]? = some vector := by
  obtain ⟨bytes', entries, named', read, listed⟩ := holds
  have same : bytes = bytes' := injective (congrArg ContentHash.text (named.trans named'.symm))
  subst same
  exact ⟨entries, read, listed⟩

section Loop

variable [ManifestJson]

end Loop

/-! ## The calls of a handle -/

omit [Blake3] [Serde] in
theorem checkKeyLen_ok {k : RecordKey} (checked : checkKeyLen k = .ok ()) :
    (asBytes k.ns).length < 65536 ∧ (asBytes k.collection).length < 65536 := by
  unfold checkKeyLen at checked
  split at checked
  · cases checked
  · omega

omit [Blake3] [Serde] in
/-- The two checks of an item, one after the other. -/
theorem checked_fits {k : RecordKey} {vector : Components} {dim : Nat} {e : CoreError}
    (checked : (checkKeyLen k >>= fun _ =>
      if vector.length ≠ dim then Except.error e else Except.ok ()) = .ok ()) :
    (Delta.upsert k vector).Fits dim := by
  cases short : checkKeyLen k with
  | error e' =>
    rw [short] at checked
    cases checked
  | ok u =>
    rw [short] at checked
    change (if vector.length ≠ dim then Except.error e else Except.ok ()) = _ at checked
    split at checked
    · cases checked
    next same => exact ⟨(checkKeyLen_ok short).1, (checkKeyLen_ok short).2, not_not.mp same⟩

omit [Blake3] [Serde] in
/-- What the checks accept, the shard format's short fields hold. -/
theorem checkOp_ok {op : VectorOp} (checked : checkOp s op = .ok ()) :
    ∀ delta ∈ op.deltas, delta.Fits s.dim := by
  cases op with
  | upsert k vector =>
    intro delta member
    cases List.mem_singleton.mp member
    exact checked_fits checked
  | remove k =>
    intro delta member
    cases List.mem_singleton.mp member
    trivial
  | upsertMany items =>
    change items.forM (checkItem s) = .ok () at checked
    have all : ∀ item ∈ items, (Delta.upsert item.1 item.2).Fits s.dim := by
      induction items with
      | nil => simp
      | cons item rest ih =>
        rw [List.forM_eq_forM, List.forM_cons] at checked
        cases first : checkItem s item with
        | error e =>
          rw [first] at checked
          cases checked
        | ok u =>
          rw [first] at checked
          intro other member
          rcases List.mem_cons.mp member with rfl | later
          · exact checked_fits first
          · exact ih checked other later
    intro delta member
    obtain ⟨item, listed, rfl⟩ := List.mem_map.mp member
    exact all item listed

end Gonzalo.Vector
