import Gonzalo.Core.Backend
import Gonzalo.Core.Merge

/-!
# Restoring a deleted manifest

`gonzalo-core/src/undelete.rs`. Only a manifest's tombstone retains a body; the
restored record continues the chain past the tombstone and is written through the
replication surface.
-/

set_option autoImplicit false

namespace Gonzalo.Core
open Gonzalo.Lib

/-- The hashes a manifest names. -/
def Manifest.blobs (self : Manifest) : List ContentHash := self.entries.toList.map Prod.snd

/-- The hashes a vector manifest names. -/
def VectorManifest.blobs (self : VectorManifest) : List ContentHash :=
  self.entries.toList.map Prod.snd

theorem Manifest.mem_blobs {self : Manifest} {hash : ContentHash} :
    hash ∈ self.blobs ↔ ∃ path : String, self.entries[path]? = some hash := by
  simp [blobs, Std.ExtTreeMap.mem_toList_iff_getElem?_eq_some]

theorem VectorManifest.mem_blobs {self : VectorManifest} {hash : ContentHash} :
    hash ∈ self.blobs ↔ ∃ shard : UInt16, self.entries[shard]? = some hash := by
  simp [blobs, Std.ExtTreeMap.mem_toList_iff_getElem?_eq_some]

variable [Blake3] [Serde]

/-- `referenced_blobs`: the hashes a body of this kind names. -/
def referencedBlobs (kind : RecordKind) (body : Body) : Except CoreError (List ContentHash) :=
  match kind with
  | .vectorManifest => (VectorManifest.fromBody body).map VectorManifest.blobs
  | .graphManifest => (Manifest.fromBody body).map Manifest.blobs
  | _ => .ok []

/-- The record that restores `tomb` as a record of kind `kind`. -/
def restoredRecord (key : RecordKey) (kind : RecordKind) (tomb : Record) (nowMs : Int)
    (author : Option Identity) : Record where
  key := key
  kind := kind
  revision := ⟨tomb.revision.counter + 1, .of tomb.body.bytes⟩
  parent := some tomb.revision
  body := tomb.body
  metadata := { tomb.metadata with author := author.getD tomb.metadata.author, updated := nowMs }
  links := []
  ancestors := []
  deletedAt := none
  deletedBlob := none
  deletedKind := none

/-- The check of the blobs before the write: those that are gone. -/
def missingBlobs (hashes : List ContentHash) : BackendProgram (List ContentHash) :=
  hashes.foldlM (fun missing hash => do
    let stored ← callHasBlob hash
    pure (if stored then missing else missing ++ [hash])) []

/-- `undelete`. -/
def undelete (key : RecordKey) (nowMs : Int) (author : Option Identity) :
    BackendProgram Revision := do
  match ← callGetRaw key with
  | none => .fail (.notFound key)
  | some tomb =>
    if !tomb.isTombstone then
      .fail (.invalid (key.display ++ " is live at revision " ++ toString tomb.revision.counter ++
        "; there is nothing to restore"))
    else match tomb.deletedKind with
    | none =>
      .fail (.invalid (key.display ++ ": the deleted body was not retained, so it cannot be " ++
        "restored. Only manifest kinds retain a body (ADR 0029)."))
    | some kind =>
      let hashes ← Program.ofExcept (referencedBlobs kind tomb.body)
      let missing ← missingBlobs hashes
      if !missing.isEmpty then
        .fail (.invalid (key.display ++ ": cannot restore, " ++ toString missing.length ++
          " blob(s) the retained body names are gone: " ++
          String.intercalate ", " (missing.map ContentHash.text)))
      else
        match ← callPutRaw (restoredRecord key kind tomb nowMs author) (some tomb.revision) with
        | .committed revision => pure revision
        | .conflict c =>
          .fail (.invalid (key.display ++ ": the key changed while restoring (now revision " ++
            toString c.current.revision.counter ++ "); nothing was written"))

/-! ## What an undelete may write -/

/-- An undelete reads the key, looks for blobs, and writes nothing but the record that
restores the tombstone it read, over that tombstone. The view is the last read. -/
def undeleteContract (key : RecordKey) (nowMs : Int) (author : Option Identity) :
    Contract backendInterface (Option Record) where
  guard v
    | .store (.getRaw k) => k = key
    | .store (.putRaw record expected) => ∃ tomb kind, v = some tomb ∧ tomb.isTombstone = true ∧
        tomb.deletedKind = some kind ∧ record = restoredRecord key kind tomb nowMs author ∧
        expected = some tomb.revision
    | .hasBlob _ => True
    | _ => False
  turn v req answer v' :=
    match req, answer with
    | .store (.getRaw _), .ok found => v' = found
    | _, _ => v' = v

variable {key : RecordKey} {nowMs : Int} {author : Option Identity}

omit [Serde] in
theorem wp_missingBlobs {v : Option Record} {hashes : List ContentHash} :
    Wp (undeleteContract key nowMs author) (fun v' _ => v' = v) v (missingBlobs hashes) := by
  refine Wp.foldlM (fun _ v' _ => v' = v) ?_ (fun _ _ same => same) rfl
  rintro hash rest w missing rfl
  refine ⟨trivial, fun answer w' turned => ?_⟩
  cases turned
  cases answer <;> rfl

theorem wp_undelete {v : Option Record} :
    Wp (undeleteContract key nowMs author) (fun _ _ => True) v (undelete key nowMs author) := by
  refine ⟨rfl, fun answer v' turned => ?_⟩
  cases answer with
  | error e => exact trivial
  | ok found =>
    cases turned
    cases v' with
    | none => exact trivial
    | some tomb =>
      change Wp _ _ _ (ite _ _ _)
      split
      · exact trivial
      next dead =>
        cases kept : tomb.deletedKind with
        | none => exact trivial
        | some kind =>
          refine Wp.ofExcept_bind_iff.mpr ?_
          cases referencedBlobs kind tomb.body with
          | error e => exact trivial
          | ok hashes =>
            refine Wp.bind_iff.mpr (wp_missingBlobs.mono ?_)
            rintro _ result rfl
            cases result with
            | error e => exact trivial
            | ok missing =>
              simp only [seqPost]
              split
              · exact trivial
              · refine ⟨⟨tomb, kind, rfl, by simpa using dead, kept, rfl, rfl⟩, fun answer w turned => ?_⟩
                rcases answer with e | ⟨rev⟩ | ⟨c⟩ <;> exact trivial

end Gonzalo.Core
