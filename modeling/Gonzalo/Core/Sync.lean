import Gonzalo.Core.MemStore
import Gonzalo.Core.Merge
import Gonzalo.Lib.Program

/-!
# Reconciling two stores

`gonzalo-core/src/sync.rs`. A sync is a client of two stores: it reads each key on
both sides, classifies the pair and writes through the replication surface,
one call at a time. The stores are named by a type `σ`, so a run may involve any
number of them; whether an ancestry store is supplied is a Boolean, and its reads
are requests of their own.
-/

set_option autoImplicit false

namespace Gonzalo.Core
open Gonzalo.Lib

/-- What a sync asks: a call of one of the stores, or a read of the ancestry store. -/
inductive SyncReq (σ : Type) where
  | store (name : σ) (req : StoreReq)
  | getBlob (hash : ContentHash)

def SyncReq.Ans {σ : Type} : SyncReq σ → Type
  | store _ req => req.Ans
  | getBlob _ => Except CoreError (Option Bytes)

def syncInterface (σ : Type) : Interface := ⟨SyncReq σ, SyncReq.Ans⟩

abbrev SyncProgram (σ α : Type) : Type := Program (syncInterface σ) CoreError α

/-- A divergence that could not be merged automatically. Neither side is written. -/
structure SyncConflict where
  key : RecordKey
  a : Record
  b : Record
  deriving DecidableEq

/-- What a sync run did. -/
structure SyncReport where
  copiedToA : List RecordKey := []
  copiedToB : List RecordKey := []
  fastForwardedToA : List RecordKey := []
  fastForwardedToB : List RecordKey := []
  merged : List RecordKey := []
  conflicts : List SyncConflict := []
  unconverged : List RecordKey := []
  deriving DecidableEq

/-- `SyncReport::converged`. -/
def SyncReport.converged (self : SyncReport) : Bool := self.unconverged.isEmpty

/-- `MAX_SYNC_PASSES`. -/
def maxSyncPasses : Nat := 16

/-- How two present records for the same key relate by revision chain. -/
inductive Relation where
  | inSync | aAhead | bAhead | diverged
  deriving DecidableEq, Repr

/-- `relate`. -/
def relate (a b : Record) : Relation :=
  if a.revision = b.revision then .inSync
  else if b.revision ∈ a.ancestors then .aAhead
  else if a.revision ∈ b.ancestors then .bAhead
  else .diverged

@[simp] theorem tombstoneWinner_key {a b : Record} (cap : Nat) (same : b.key = a.key) :
    (tombstoneWinner a b cap).key = a.key := by
  unfold tombstoneWinner
  by_cases higher : b.revision ≤ a.revision <;> simp [higher, same]

theorem relate_inSync {a b : Record} : relate a b = .inSync ↔ a.revision = b.revision := by
  unfold relate
  split_ifs <;> simp_all

theorem relate_aAhead {a b : Record} (ahead : relate a b = .aAhead) :
    a.revision ≠ b.revision ∧ b.revision ∈ a.ancestors := by
  unfold relate at ahead
  split_ifs at ahead
  exact ⟨by assumption, by assumption⟩

theorem relate_bAhead {a b : Record} (ahead : relate a b = .bAhead) :
    a.revision ≠ b.revision ∧ a.revision ∈ b.ancestors := by
  unfold relate at ahead
  split_ifs at ahead
  exact ⟨by assumption, by assumption⟩

/-- `lossless_cap`: large enough never to truncate. -/
def losslessCap (a b : Record) : Nat := a.ancestors.length + b.ancestors.length + 2

/-- `build_merged`. -/
def buildMerged [Blake3] (a b : Record) (body : Body) : Record :=
  reconciledRecord a b body (.new "gonzalo-sync") "sync" (losslessCap a b)

section Requests

variable {σ : Type}

/-- Issue one call. -/
def ask (req : SyncReq σ) : SyncProgram σ req.Ans := @Program.request (syncInterface σ) _ req

def listRaw (name : σ) : SyncProgram σ (List RecordKey) :=
  ask (.store name (.listRaw .all)) >>= .ofExcept

def getRaw (name : σ) (key : RecordKey) : SyncProgram σ (Option Record) :=
  ask (.store name (.getRaw key)) >>= .ofExcept

def putRaw (name : σ) (record : Record) (expected : Option Revision) :
    SyncProgram σ (Except CoreError PutResult) :=
  ask (.store name (.putRaw record expected))

def getBlob (hash : ContentHash) : SyncProgram σ (Except CoreError (Option Bytes)) :=
  ask (.getBlob hash)

/-- `copy`: create `rec` in `dst`, `false` if `dst` gained something meanwhile. -/
def copy (dst : σ) (rec : Record) : SyncProgram σ Bool := do
  match ← putRaw dst rec none with
  | .ok (.committed _) => pure true
  | .ok (.conflict _) => pure false
  | .error e => .fail e

/-- `overwrite`: replace revision `expected` in `dst`, `false` if it moved or was
purged meanwhile. -/
def overwrite (dst : σ) (rec : Record) (expected : Revision) : SyncProgram σ Bool := do
  match ← putRaw dst rec (some expected) with
  | .ok (.committed _) => pure true
  | .ok (.conflict _) => pure false
  | .error (.notFound _) => pure false
  | .error e => .fail e

/-- `ancestry_base`: the body of the shared parent when the ancestry store retains
it, else an empty base. -/
def ancestryBase (ancestry : Bool) (recA recB : Record) : SyncProgram σ Body := do
  match ancestry, recA.parent, recB.parent with
  | true, some pa, some pb =>
    if pa = pb then
      match ← getBlob pa.hash with
      | .ok (some bytes) => pure (.inline bytes)
      | _ => pure (.inline [])
    else pure (.inline [])
  | _, _, _ => pure (.inline [])

end Requests

/-- The report of the pass so far, and the keys whose write lost a race. -/
structure PassState where
  report : SyncReport := {}
  raced : List RecordKey := []

/-- The end of every write arm: note the key in the report, or as raced. -/
def PassState.settle (s : PassState) (key : RecordKey) (landed : Bool)
    (note : SyncReport → SyncReport) : PassState :=
  if landed then { s with report := note s.report } else { s with raced := s.raced ++ [key] }

/-- `report.conflicts.push(..)`. -/
def PassState.conflict (s : PassState) (key : RecordKey) (recA recB : Record) : PassState :=
  { s with report :=
      { s.report with conflicts := s.report.conflicts ++ [⟨key, recA, recB⟩] } }

section Pass

variable {σ : Type} [Blake3] [Serde]

/-- Write `rec` over both sides of a diverged pair. -/
def overwriteBoth (a b : σ) (rec : Record) (revA revB : Revision) : SyncProgram σ Bool := do
  let la ← overwrite a rec revA
  let lb ← overwrite b rec revB
  pure (la && lb)

/-- The `Relation::Diverged` arm of `sync_pass`. -/
def reconcileDiverged (a b : σ) (ancestry : Bool) (key : RecordKey) (recA recB : Record)
    (s : PassState) : SyncProgram σ PassState := do
  match recA.isTombstone, recB.isTombstone with
  | true, true =>
    let winner := tombstoneWinner recA recB (losslessCap recA recB)
    let landed ← overwriteBoth a b winner recA.revision recB.revision
    pure (s.settle key landed fun r => { r with merged := r.merged ++ [key] })
  | true, false | false, true => pure (s.conflict key recA recB)
  | false, false =>
    let base ← ancestryBase ancestry recA recB
    match merge recA.kind.mergeClass base recA.body recB.body with
    | .merged body =>
      let landed ← overwriteBoth a b (buildMerged recA recB body) recA.revision recB.revision
      pure (s.settle key landed fun r => { r with merged := r.merged ++ [key] })
    | .needsResolution => pure (s.conflict key recA recB)

/-- The body of the loop of `sync_pass`: reconcile one key. -/
def syncKey (a b : σ) (ancestry : Bool) (s : PassState) (key : RecordKey) :
    SyncProgram σ PassState := do
  let ra ← getRaw a key
  let rb ← getRaw b key
  match ra, rb with
  | some rec, none =>
    let landed ← copy b rec
    pure (s.settle key landed fun r => { r with copiedToB := r.copiedToB ++ [key] })
  | none, some rec =>
    let landed ← copy a rec
    pure (s.settle key landed fun r => { r with copiedToA := r.copiedToA ++ [key] })
  | some recA, some recB =>
    match relate recA recB with
    | .inSync => pure s
    | .aAhead =>
      let landed ← overwrite b recA recB.revision
      pure (s.settle key landed fun r => { r with fastForwardedToB := r.fastForwardedToB ++ [key] })
    | .bAhead =>
      let landed ← overwrite a recB recA.revision
      pure (s.settle key landed fun r => { r with fastForwardedToA := r.fastForwardedToA ++ [key] })
    | .diverged => reconcileDiverged a b ancestry key recA recB s
  | none, none => pure s

/-- `sync_pass`: one pass over the union of the raw keys, in key order. -/
def syncPass (a b : σ) (ancestry : Bool) : SyncProgram σ PassState := do
  let keysA ← listRaw a
  let keysB ← listRaw b
  (ascending (keysA ++ keysB)).foldlM (syncKey a b ancestry) {}

/-- The loop of `sync_with_ancestry` with `passes` turns left. -/
def syncLoop (a b : σ) (ancestry : Bool) : Nat → SyncReport → SyncProgram σ SyncReport
  | 0, report => pure report
  | passes + 1, _ => do
    let pass ← syncPass a b ancestry
    if pass.raced.isEmpty then pure pass.report
    else syncLoop a b ancestry passes { pass.report with unconverged := pass.raced }

/-- `sync_with_ancestry`; `sync` is the case of no ancestry store. -/
def syncWithAncestry (a b : σ) (ancestry : Bool) : SyncProgram σ SyncReport :=
  syncLoop a b ancestry maxSyncPasses {}

/-- `sync`. -/
def sync (a b : σ) : SyncProgram σ SyncReport := syncWithAncestry a b false

end Pass

end Gonzalo.Core
