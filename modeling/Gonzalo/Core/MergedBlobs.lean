import Gonzalo.Core.Gc
import Gonzalo.Core.Sync
import Gonzalo.Core.StructuredMerge

/-!
# The blobs behind a merge

`reconciled_record` of `gonzalo-core/src/tombstone.rs` beside the mark phase of
`gonzalo-core/src/gc.rs`. The merge works on the bytes a body yields, which for a blob are
the text of its hash, and what it answers is always held in the record itself. So a merged
record names no blob, whatever its two sides named.
-/

set_option autoImplicit false

namespace Gonzalo.Core

/-- A kind whose diverged records are merged from both bodies. -/
def RecordKind.isMergedFromBoth (kind : RecordKind) : Prop :=
  kind.mergeClass = .appendOnly ∨ kind.mergeClass = .structured

/-- The record refers to a blob: as its body, or as one it pins. -/
def Record.RefersToBlob (self : Record) : Prop :=
  (∃ hash len, self.body = .blob hash len) ∨ self.deletedBlob ≠ none

section Merged

variable [Blake3] [Serde]

/-- The mark phase marks `hash` for this record. -/
def Marks (r : Record) (hash : ContentHash) : Prop :=
  ∃ hashes, recordBlobs r = .ok hashes ∧ hash ∈ hashes

omit [Blake3] in
/-- Apart from manifests and tombstones, the mark phase looks at two fields. -/
theorem marks_iff {r : Record} (auto : r.kind.isMergedFromBoth) {hash : ContentHash} :
    Marks r hash ↔ (∃ len, r.body = .blob hash len) ∨ r.deletedBlob = some hash := by
  have others : r.kind ≠ .graphManifest ∧ r.kind ≠ .vectorManifest ∧ r.kind ≠ .tombstone := by
    refine ⟨?_, ?_, ?_⟩ <;> intro kind <;>
      simp [RecordKind.isMergedFromBoth, RecordKind.mergeClass, kind] at auto
  unfold Marks recordBlobs
  cases r.body <;>
    simp [blobsIf, others, bind, Except.bind, pure, Except.pure, eq_comm]

omit [Blake3] in
theorem exists_marks_iff {r : Record} (auto : r.kind.isMergedFromBoth) :
    (∃ hash, Marks r hash) ↔ r.RefersToBlob := by
  simp only [marks_iff auto, Record.RefersToBlob, exists_or, ← Option.ne_none_iff_exists']

omit [Blake3] in
/-- The body of a merge from both sides is held in the record. -/
theorem merged_inline {mergeClass : MergeClass} {base ours theirs body : Body}
    (both : mergeClass = .appendOnly ∨ mergeClass = .structured)
    (merged : merge mergeClass base ours theirs = .merged body) : ∃ bytes, body = .inline bytes := by
  rcases both with rfl | rfl
  · cases merged
    exact ⟨_, rfl⟩
  · simp only [merge, structuredMerge] at merged
    split at merged
    · split at merged
      · split at merged
        · cases merged
          exact ⟨_, rfl⟩
        · cases merged
      · cases merged
    · cases merged

/-- A record reconciled from both sides is marked for no blob. -/
theorem not_marks_reconciled {a b : Record} {base body : Body} (auto : a.kind.isMergedFromBoth)
    (merged : merge a.kind.mergeClass base a.body b.body = .merged body) (author : Identity)
    (originSystem : String) (cap : Nat) (hash : ContentHash) :
    ¬ Marks (reconciledRecord a b body author originSystem cap) hash := by
  obtain ⟨bytes, rfl⟩ := merged_inline auto merged
  rw [marks_iff (r := reconciledRecord a b _ author originSystem cap) auto]
  simp [reconciledRecord]

/-- A reconciliation of `a` and `b` is a conflict, or its record is marked for every blob
that one of them is marked for. -/
def MergeKeepsBlobs (a b : Record) (base : Body) : Prop :=
  merge a.kind.mergeClass base a.body b.body = .needsResolution ∨
    ∃ body, merge a.kind.mergeClass base a.body b.body = .merged body ∧
      ∀ author originSystem cap hash, Marks a hash ∨ Marks b hash →
        Marks (reconciledRecord a b body author originSystem cap) hash

/-- The two bodies need a resolution: they are structured, and one of the three texts is
no JSON or the documents are in conflict. -/
def AsksToResolve (a b : Record) (base : Body) : Prop :=
  a.kind.mergeClass = .structured ∧
    ∀ x y z, Serde.fromSlice base.bytes = some x → Serde.fromSlice a.body.bytes = some y →
      Serde.fromSlice b.body.bytes = some z → ConflictAt (some x) (some y) (some z)

omit [Blake3] in
theorem merge_asks_iff (writes : ∀ value, (Serde.toVec value).isSome) {a b : Record} {base : Body}
    (auto : a.kind.isMergedFromBoth) :
    merge a.kind.mergeClass base a.body b.body = .needsResolution ↔ AsksToResolve a b base := by
  unfold AsksToResolve
  rcases auto with appended | structured
  · simp [appended, merge, appendOnlyMerge]
  · rw [structured, ← structuredMerge_asks_iff writes]
    simp [merge]

/-- A merge of two records keeps the blobs they are marked for exactly where it asks for a
resolution or neither of them refers to a blob. -/
theorem merge_keeps_blobs_iff (writes : ∀ value, (Serde.toVec value).isSome) {a b : Record}
    (base : Body) (autoA : a.kind.isMergedFromBoth) (autoB : b.kind.isMergedFromBoth) :
    MergeKeepsBlobs a b base ↔
      AsksToResolve a b base ∨ ¬ a.RefersToBlob ∧ ¬ b.RefersToBlob := by
  rw [← merge_asks_iff writes autoA, ← exists_marks_iff autoA, ← exists_marks_iff autoB]
  constructor
  · rintro (asks | ⟨body, merged, kept⟩)
    · exact Or.inl asks
    · have unmarked := not_marks_reconciled autoA merged (.new "gonzalo-sync") "sync" 0
      exact Or.inr ⟨fun ⟨hash, marked⟩ => unmarked hash (kept _ _ _ hash (Or.inl marked)),
        fun ⟨hash, marked⟩ => unmarked hash (kept _ _ _ hash (Or.inr marked))⟩
  · rintro (asks | ⟨noneA, noneB⟩)
    · exact Or.inl asks
    · cases merging : merge a.kind.mergeClass base a.body b.body with
      | needsResolution => exact Or.inl merging
      | merged body =>
        refine Or.inr ⟨body, merging, fun author originSystem cap hash marked => ?_⟩
        exact absurd marked (not_or.mpr ⟨fun m => noneA ⟨hash, m⟩, fun m => noneB ⟨hash, m⟩⟩)

end Merged

/-! ## A topic whose body is a blob -/

section Topics

attribute [local instance] sampleBlake3 plainSerde

/-- A topic whose text is held in a blob. -/
def topicInBlob : Record :=
  { topicAt rustKey 1 "v0" with body := .blob (.of (asBytes "v0")) 2 }

/-- Two topics that diverged, one of them in a blob: the merge answers with the text of
the blob's hash, and nothing marks the blob any more. -/
theorem blob_topic_is_dropped :
    relate topicInBlob (topicAt rustKey 1 "v1") = .diverged ∧
      topicInBlob.kind.isMergedFromBoth ∧
      Marks topicInBlob (.of (asBytes "v0")) ∧
      ¬ MergeKeepsBlobs topicInBlob (topicAt rustKey 1 "v1") (.inline []) := by
  have auto : topicInBlob.kind.isMergedFromBoth := Or.inl rfl
  have marked : Marks topicInBlob (.of (asBytes "v0")) := (marks_iff auto).mpr (Or.inl ⟨2, rfl⟩)
  refine ⟨by decide, auto, marked, ?_⟩
  rintro (asks | ⟨body, merged, kept⟩)
  · cases asks
  · exact not_marks_reconciled auto merged (.new "gonzalo-sync") "sync" 0 _
      (kept _ _ _ _ (Or.inl marked))

end Topics

section Documents

attribute [local instance] sampleBlake3 sampleSerde

/-- Two tickets with inline bodies. -/
theorem inline_tickets_keep_blobs :
    MergeKeepsBlobs { topicAt rustKey 1 "v0" with kind := .ticket }
      { topicAt rustKey 1 "v1" with kind := .ticket } (.inline []) := by
  refine (merge_keeps_blobs_iff (fun _ => rfl) (.inline []) (Or.inr rfl) (Or.inr rfl)).mpr
    (Or.inr ⟨?_, ?_⟩) <;> rintro (⟨_, _, blob⟩ | pinned)
  · cases blob
  · exact pinned rfl
  · cases blob
  · exact pinned rfl

end Documents

end Gonzalo.Core
