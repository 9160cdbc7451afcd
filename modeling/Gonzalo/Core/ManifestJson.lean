import Gonzalo.Core.Merge
import Gonzalo.Core.RecordJson

/-!
# Manifests as record bodies

`to_body` of `gonzalo-core/src/manifest.rs` and `vector_manifest.rs`, with `serde_json` as
a parameter, and what is relied on of it: a manifest reads back as it was written.
-/

set_option autoImplicit false

namespace Gonzalo.Core

/-- `serde_json::to_vec` on the two manifest types, which does not fail. -/
class ManifestJson where
  manifestToVec : Manifest → Bytes
  vectorManifestToVec : VectorManifest → Bytes

section Bodies

variable [ManifestJson]

/-- `Manifest::to_body`. -/
def Manifest.toBody (self : Manifest) : Body := .inline (ManifestJson.manifestToVec self)

/-- `VectorManifest::to_body`. -/
def VectorManifest.toBody (self : VectorManifest) : Body :=
  .inline (ManifestJson.vectorManifestToVec self)

variable [Serde]

/-- What is written of a manifest reads back as that manifest. -/
structure ManifestsRoundTrip : Prop where
  graph : ∀ m : Manifest, Manifest.fromBody m.toBody = .ok m
  vector : ∀ m : VectorManifest, VectorManifest.fromBody m.toBody = .ok m

end Bodies

/-! ## A format that reads back -/

theorem toList_injective : Function.Injective String.toList := fun _ _ => String.toList_inj.mp

theorem toNat_injective : Function.Injective Char.toNat := fun _ _ => Char.toNat_inj.mp

instance countableChar : Countable Char := toNat_injective.countable

instance countableString : Countable String := toList_injective.countable

instance : Countable ContentHash := by
  refine Function.Injective.countable (f := ContentHash.text) fun a b same => ?_
  cases a
  exact congrArg _ same

instance : Countable VectorManifest := by
  refine Function.Injective.countable
    (f := fun m : VectorManifest => (m.space, m.dim, m.shards, m.entries.toList))
    fun a b same => ?_
  obtain ⟨space, dim, shards, entries⟩ := a
  obtain ⟨space', dim', shards', entries'⟩ := b
  simp only [Prod.mk.injEq, Std.ExtTreeMap.toList_inj] at same
  obtain ⟨rfl, rfl, rfl, rfl⟩ := same
  rfl

instance : Countable Manifest := by
  refine Function.Injective.countable (f := fun m : Manifest => m.entries.toList)
    fun a b same => ?_
  cases a
  exact congrArg _ (Std.ExtTreeMap.toList_inj.mp same)

instance countableUInt64 : Countable UInt64 :=
  (show Function.Injective UInt64.toNat from fun _ _ => UInt64.toNat_inj.mp).countable

instance countableUInt8 : Countable UInt8 :=
  (show Function.Injective UInt8.toNat from fun _ _ => UInt8.toNat_inj.mp).countable

instance : Countable RecordKey := by
  refine Function.Injective.countable (f := fun k : RecordKey => (k.ns, k.collection, k.id))
    fun a b same => ?_
  cases a
  cases b
  simp_all

instance : Countable Revision := by
  refine Function.Injective.countable (f := fun r : Revision => (r.counter, r.hash)) fun a b same => ?_
  cases a
  cases b
  simp_all

instance : Countable RecordKind := by
  refine Function.Injective.countable (f := RecordKind.ctorIdx) fun a b same => ?_
  cases a <;> cases b <;> first | rfl | cases same

instance : Countable Body := by
  refine Function.Injective.countable
    (f := fun b : Body => match b with
      | .inline bytes => Sum.inl bytes
      | .blob hash len => Sum.inr (hash, len)) fun a b same => ?_
  cases a <;> cases b <;> simp_all

instance : Countable Identity := by
  refine Function.Injective.countable (f := fun i : Identity => (i.id, i.display)) fun a b same => ?_
  cases a
  cases b
  simp_all

instance : Countable Meta := by
  refine Function.Injective.countable
    (f := fun m : Meta => (m.author, m.originSystem, m.created, m.updated, m.labels.toList))
    fun a b same => ?_
  cases a
  cases b
  simp only [Prod.mk.injEq, Std.ExtTreeMap.toList_inj] at same
  simp_all

instance : Countable Record := by
  refine Function.Injective.countable
    (f := fun r : Record => (r.key, r.kind, r.revision, r.parent, r.body, r.metadata, r.links,
      r.ancestors, r.deletedAt, r.deletedBlob, r.deletedKind)) fun a b same => ?_
  cases a
  cases b
  simp_all

theorem exists_bytes (α : Type) [Countable α] : ∃ write : α → Bytes, Function.Injective write := by
  obtain ⟨number, distinct⟩ := exists_injective_nat α
  refine ⟨fun a => List.replicate (number a) 0, fun a b same => distinct ?_⟩
  simpa using congrArg List.length same

open Classical in
/-- There are formats in which both manifests read back as they were written. -/
theorem exists_roundTrip : ∃ (_ : Serde) (_ : ManifestJson), ManifestsRoundTrip := by
  obtain ⟨graph, graphDistinct⟩ := exists_bytes Manifest
  obtain ⟨vector, vectorDistinct⟩ := exists_bytes VectorManifest
  let serde : Serde :=
    { fromSlice := fun _ => none
      toVec := fun _ => none
      manifestFromSlice := fun bytes =>
        if written : ∃ m, graph m = bytes then .ok written.choose else .error "not a manifest"
      vectorManifestFromSlice := fun bytes =>
        if written : ∃ m, vector m = bytes then .ok written.choose else .error "not a manifest" }
  let json : ManifestJson := ⟨graph, vector⟩
  refine ⟨serde, json, @ManifestsRoundTrip.mk json serde (fun m => ?_) fun m => ?_⟩
  · have written : ∃ m', graph m' = graph m := ⟨m, rfl⟩
    have read : serde.manifestFromSlice (graph m) = .ok m := by
      change (if written : ∃ m', graph m' = graph m then _ else _) = _
      rw [dif_pos written, graphDistinct written.choose_spec]
    exact congrArg (Except.mapError CoreError.serde) read
  · have written : ∃ m', vector m' = vector m := ⟨m, rfl⟩
    have read : serde.vectorManifestFromSlice (vector m) = .ok m := by
      change (if written : ∃ m', vector m' = vector m then _ else _) = _
      rw [dif_pos written, vectorDistinct written.choose_spec]
    exact congrArg (Except.mapError CoreError.serde) read

open Classical in
/-- There is a format in which every record can be written and reads back. -/
theorem exists_recordFiles : ∃ _ : RecordJson Bytes, RoundTrip Bytes ∧
    ∀ record, ∃ bytes : Bytes, encode record = .ok bytes := by
  obtain ⟨write, distinct⟩ := exists_bytes Record
  let json : RecordJson Bytes :=
    { toVecPretty := fun record => .ok (write record)
      fromSlice := fun bytes =>
        if written : ∃ record, write record = bytes then .ok written.choose else .error "not a record" }
  refine ⟨json, fun record file encoded => ?_, fun record => ⟨write record, rfl⟩⟩
  obtain rfl : write record = file := Except.ok.inj encoded
  have written : ∃ record', write record' = write record := ⟨record, rfl⟩
  have read : json.fromSlice (write record) = .ok record := by
    change (if written : ∃ record', write record' = write record then _ else _) = _
    rw [dif_pos written, distinct written.choose_spec]
  exact congrArg (Except.mapError CoreError.serde) read

end Gonzalo.Core
