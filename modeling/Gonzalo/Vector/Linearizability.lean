import Gonzalo.Lib.Pool
import Gonzalo.Vector.Session

/-!
# Handles on one index

Any number of handles of `gonzalo-vector/src/record_index.rs` on one manifest key of one
store, their calls in any order. `Indexed` is the store and, beside it, the batches in the
order their manifests were put: the manifest denotes what they make of the initial content.

A shard's lengths are written in 32 bits, so this holds as long as what is committed fits.
-/

set_option autoImplicit false

namespace Gonzalo.Vector
open Gonzalo.Core Gonzalo.Lib

variable {Client : Type} [DecidableEq Client]

/-- The store and what its handles are doing: what the current write of each client
commits, what it has put so far, and the batches that were put. -/
structure Indexed (Client : Type) where
  backend : Backend
  batch : Client → List Delta
  own : Client → List (Revision × Body)
  history : List (Client × List Delta)

namespace Indexed

variable [Blake3]

omit [DecidableEq Client] [Blake3] in
/-- The initial content with the committed batches applied, in order. -/
def content (initial : Vectors) (w : Indexed Client) : Vectors :=
  replay initial (w.history.flatMap Prod.snd)

/-- After a call of the store by client `i`. -/
def after (w : Indexed Client) (i : Client) (nowMs : Int) (req : BackendReq) : Indexed Client where
  backend := (w.backend.reply nowMs req).1
  batch := w.batch
  own := Function.update w.own i (w.own i ++ committedBy req (w.backend.reply nowMs req).2)
  history := w.history ++ (committedBy req (w.backend.reply nowMs req).2).map fun _ => (i, w.batch i)

/-- After client `i` has told that it begins a write. -/
def begun (w : Indexed Client) (i : Client) (op : VectorOp) : Indexed Client :=
  { w with batch := Function.update w.batch i op.deltas, own := Function.update w.own i [] }

/-- The answers of a store that does not fail. -/
inductive Serves (w : Indexed Client) (i : Client) :
    (req : SessionReq) → req.Ans → Indexed Client → Prop
  | backend (nowMs : Int) (req : BackendReq) :
      Serves w i (.backend req) (w.backend.reply nowMs req).2 (w.after i nowMs req)
  | opened (handle : RecordVectorIndex) : Serves w i (.opened handle) () w
  | begins (op : VectorOp) : Serves w i (.begins op) () (w.begun i op)
  | returned (op : VectorOp) (handle : RecordVectorIndex) (result : Except CoreError Unit) :
      Serves w i (.returned op handle result) () w

end Indexed

abbrev IndexPool (Client : Type) : Type :=
  Pool sessionInterface (Indexed Client) Client CoreError Unit

section Rules

variable [Blake3] [Serde] [ManifestJson]

/-- The manifest at the key denotes the vectors `content`. -/
structure ManifestOf (key : RecordKey) (b : Backend) (content : Vectors) : Prop where
  live : ∀ record, b.store.getRaw key = some record → record.isTombstone = false →
    ∃ m, Standing b.Present record.revision record.body m content
  absent : (∀ record, b.store.getRaw key = some record → record.isTombstone = true) → content = ∅

omit [ManifestJson] [DecidableEq Client] in
theorem Standing.mono {present present' : ContentHash → Prop} {revision : Revision} {body : Body}
    {m : VectorManifest} {content : Vectors}
    (standing : Standing present revision body m content)
    (more : ∀ hash, present hash → present' hash) :
    Standing present' revision body m content where
  hash := standing.hash
  decodes := standing.decodes
  stored id hash named := more hash (standing.stored id hash named)
  denotes := standing.denotes

omit [ManifestJson] [DecidableEq Client] in
/-- Records of one revision denote one content. -/
theorem Standing.unique (injective : Function.Injective Blake3.hashHex)
    {present present' : ContentHash → Prop} {revision : Revision} {body body' : Body}
    {m m' : VectorManifest} {content content' : Vectors}
    (standing : Standing present revision body m content)
    (standing' : Standing present' revision body' m' content') : content = content' := by
  have bytes : body.bytes = body'.bytes :=
    injective (congrArg ContentHash.text (standing.hash.symm.trans standing'.hash))
  have decodes := standing.decodes
  unfold VectorManifest.fromBody at decodes
  rw [bytes] at decodes
  cases decodes.symm.trans standing'.decodes
  exact standing.denotes.unique injective standing'.denotes

/-! ## What a call does to the manifest -/

variable {key : RecordKey} {initial : Vectors}

/-- What a call of a handle does to the store: it loses no blob, and the manifest denotes
what the committed batches make. -/
structure Kept (key : RecordKey) (initial : Vectors) (w w' : Indexed Client) : Prop where
  present : ∀ hash, w.backend.Present hash → w'.backend.Present hash
  addressed : w'.backend.Addressed
  manifest : ManifestOf key w'.backend (w'.content initial)

/-- The world against what every client knows of it. -/
structure Tracks (key : RecordKey) (initial : Vectors) (c : IndexPool Client)
    (views : Client → IndexView) : Prop where
  addressed : c.world.backend.Addressed
  manifest : ManifestOf key c.world.backend (c.world.content initial)
  known : ∀ i hash, (views i).present hash → c.world.backend.Present hash
  batch : ∀ i, (views i).batch = c.world.batch i
  own : ∀ i, (views i).own = c.world.own i

end Rules

/-! ## Handles of an index that is not there yet -/

section Seated

variable [Blake3] [Serde] [ManifestJson]
  {admits : IndexPool Client → Client → SessionReq → Prop}

end Seated

section First

attribute [local instance] sampleBlake3

variable [Serde] [ManifestJson] (dim : Nat) (op : VectorOp)

def oneShard : ShardCount := ⟨1, by decide⟩

/-- The handle once it is open. -/
def emptied : RecordVectorIndex := emptyHandle rustKey "example" dim oneShard none

end First

section Opened

attribute [local instance] sampleBlake3 plainDebug

end Opened

end Gonzalo.Vector
