import Gonzalo.Core.MemStore
import Gonzalo.Lib.Program

/-!
# A store with its blobs

The `BlobStore` half of `gonzalo-core/src/store.rs`. Garbage collection and undelete
work on a value that is both a `Store` and a `BlobStore`; `Backend` is its state
and `BackendReq` the calls of both traits they use. A listing of blobs promises
neither order nor uniqueness, and any call may fail, before or after its effect.

Times are nanoseconds since the epoch where the source has a `SystemTime` or a
`Duration`, and milliseconds where it has an `i64`.
-/

set_option autoImplicit false

namespace Gonzalo.Core
open Gonzalo.Lib

/-! ## Texts -/

/-- `{:?}` of a string. -/
class DebugFmt where
  debug : String → String

/-- Texts as they are, for concrete runs. -/
@[reducible] def plainDebug : DebugFmt := ⟨id⟩

/-- `{:?}` of a revision. -/
def Revision.debug [DebugFmt] (self : Revision) : String :=
  "Revision \x7b counter: " ++ toString self.counter ++ ", hash: ContentHash(" ++
    DebugFmt.debug self.hash.text ++ ") \x7d"

/-- `Display` of a key. -/
def RecordKey.display (key : RecordKey) : String :=
  key.ns ++ "/" ++ key.collection ++ "/" ++ key.id

/-- `Display` of an error. -/
def CoreError.display : CoreError → String
  | notFound key => "record not found: " ++ key.display
  | serde message => "serialization error: " ++ message
  | invalid message => "invalid request: " ++ message
  | backend message => "backend error: " ++ message

/-! ## Blobs -/

def i64Max : Int := 9223372036854775807

/-- `SystemTime` as the source turns it into Unix milliseconds, saturating. -/
def unixMs (timeNs : Int) : Int :=
  if 0 ≤ timeNs then min (timeNs / 1000000) i64Max else -(min (-timeNs / 1000000) i64Max)

/-- One stored blob and when it was last written. -/
structure BlobEntry where
  hash : ContentHash
  modifiedUnixMs : Int
  deriving DecidableEq

/-- `BlobEntry::age`: how old the blob is, in nanoseconds; `none` when it is dated in
the future, or so far back that the subtraction overflows. -/
def BlobEntry.age (self : BlobEntry) (nowNs : Int) : Option Nat :=
  let ageMs := unixMs nowNs - self.modifiedUnixMs
  if ageMs < -i64Max - 1 ∨ i64Max < ageMs then none
  else if ageMs < 0 then none
  else some (ageMs.toNat * 1000000)

/-- A blob that has an age is not dated in the future, and its age is the gap. -/
theorem BlobEntry.age_eq_some {entry : BlobEntry} {nowNs : Int} {age : Nat}
    (aged : entry.age nowNs = some age) :
    entry.modifiedUnixMs ≤ unixMs nowNs ∧
      (age : Int) = (unixMs nowNs - entry.modifiedUnixMs) * 1000000 := by
  simp only [BlobEntry.age] at aged
  split at aged
  · cases aged
  · split at aged
    · cases aged
    · cases aged
      omega

/-- The calls of a store that also holds blobs. -/
inductive BackendReq where
  | store (req : StoreReq)
  | putBlob (content : Bytes)
  | getBlob (hash : ContentHash)
  | hasBlob (hash : ContentHash)
  | listBlobs
  | deleteBlob (hash : ContentHash)

def BackendReq.Ans : BackendReq → Type
  | store req => req.Ans
  | putBlob _ => Except CoreError ContentHash
  | getBlob _ => Except CoreError (Option Bytes)
  | hasBlob _ => Except CoreError Bool
  | listBlobs => Except CoreError (List BlobEntry)
  | deleteBlob _ => Except CoreError Unit

/-- The answer of a call that failed. -/
def BackendReq.failed (e : CoreError) : (req : BackendReq) → req.Ans
  | store req => req.failed e
  | putBlob _ => .error e
  | getBlob _ => .error e
  | hasBlob _ => .error e
  | listBlobs => .error e
  | deleteBlob _ => .error e

def backendInterface : Interface := ⟨BackendReq, BackendReq.Ans⟩

abbrev BackendProgram (α : Type) : Type := Program backendInterface CoreError α

/-- Issue one call. -/
def callBackend (req : BackendReq) : BackendProgram req.Ans :=
  @Program.request backendInterface _ req

def callListRaw : BackendProgram (List RecordKey) :=
  callBackend (.store (.listRaw .all)) >>= .ofExcept

def callGetRaw (key : RecordKey) : BackendProgram (Option Record) :=
  callBackend (.store (.getRaw key)) >>= .ofExcept

def callPutRaw (record : Record) (expected : Option Revision) : BackendProgram PutResult :=
  callBackend (.store (.putRaw record expected)) >>= .ofExcept

def callHasBlob (hash : ContentHash) : BackendProgram Bool :=
  callBackend (.hasBlob hash) >>= .ofExcept

def callListBlobs : BackendProgram (List BlobEntry) := callBackend .listBlobs >>= .ofExcept

def callDeleteBlob (hash : ContentHash) : BackendProgram Unit :=
  callBackend (.deleteBlob hash) >>= .ofExcept

/-- A store, its blobs, and what `list_blobs` answers. The listing is not tied to
the blobs: it may repeat a hash, lag behind, and carry any times. -/
structure Backend where
  store : MemStore
  blobs : Std.ExtTreeMap ContentHash Bytes compare
  listing : List BlobEntry

namespace Backend

/-- Whether the blob is stored. -/
def Present (w : Backend) (hash : ContentHash) : Prop := hash ∈ w.blobs

variable [Blake3]

/-- `put_blob`: write-if-absent under the content's hash. -/
def putBlob (w : Backend) (content : Bytes) : Backend :=
  { w with blobs := w.blobs.insertIfNew (.of content) content }

/-- `delete_blob`: removing an absent blob does nothing. -/
def deleteBlob (w : Backend) (hash : ContentHash) : Backend :=
  { w with blobs := w.blobs.erase hash }

omit [Blake3] in
@[simp] theorem present_deleteBlob (w : Backend) (hash hash' : ContentHash) :
    (w.deleteBlob hash).Present hash' ↔ hash ≠ hash' ∧ w.Present hash' := by
  simp [Present, deleteBlob, Std.ExtTreeMap.mem_erase]

theorem present_putBlob {w : Backend} {content : Bytes} {hash : ContentHash}
    (present : w.Present hash) : (w.putBlob content).Present hash := by
  simp only [Present, putBlob, Std.ExtTreeMap.mem_insertIfNew] at present ⊢
  exact Or.inr present

/-- A backend that does not fail, at time `nowMs`. -/
def reply (w : Backend) (nowMs : Int) : (req : BackendReq) → Backend × req.Ans
  | .store req => ({ w with store := (w.store.serve nowMs req).1 }, (w.store.serve nowMs req).2)
  | .putBlob content => (w.putBlob content, .ok (.of content))
  | .getBlob hash => (w, .ok w.blobs[hash]?)
  | .hasBlob hash => (w, .ok (w.blobs.contains hash))
  | .listBlobs => (w, .ok w.listing)
  | .deleteBlob hash => (w.deleteBlob hash, .ok ())

/-- How a call may be answered. -/
inductive Served (w : Backend) : (req : BackendReq) → req.Ans → Backend → Prop
  | store (nowMs : Int) (req : StoreReq) :
      Served w (.store req) (w.store.serve nowMs req).2
        { w with store := (w.store.serve nowMs req).1 }
  | putBlob (content : Bytes) : Served w (.putBlob content) (.ok (.of content)) (w.putBlob content)
  | getBlob (hash : ContentHash) : Served w (.getBlob hash) (.ok w.blobs[hash]?) w
  | hasBlob (hash : ContentHash) : Served w (.hasBlob hash) (.ok (w.blobs.contains hash)) w
  | listBlobs : Served w .listBlobs (.ok w.listing) w
  | deleteBlob (hash : ContentHash) : Served w (.deleteBlob hash) (.ok ()) (w.deleteBlob hash)
  | failed (req : BackendReq) (e : CoreError) : Served w req (req.failed e) w
  | lost {req : BackendReq} {answer : req.Ans} {w' : Backend} (served : Served w req answer w')
      (e : CoreError) : Served w req (req.failed e) w'

theorem served_of_reply (nowMs : Int) (w : Backend) (req : BackendReq) :
    w.Served req (w.reply nowMs req).2 (w.reply nowMs req).1 := by
  cases req with
  | store req => exact .store nowMs req
  | putBlob content => exact .putBlob content
  | getBlob hash => exact .getBlob hash
  | hasBlob hash => exact .hasBlob hash
  | listBlobs => exact .listBlobs
  | deleteBlob hash => exact .deleteBlob hash

/-- A call is answered as a backend that does not fail answers it, or it fails, with its
effect or without. -/
theorem Served.reply {w w' : Backend} {req : BackendReq} {answer : req.Ans}
    (served : w.Served req answer w') :
    ∃ nowMs, answer = (w.reply nowMs req).2 ∧ w' = (w.reply nowMs req).1 ∨
      (∃ e, answer = req.failed e) ∧ (w' = w ∨ w' = (w.reply nowMs req).1) := by
  induction served with
  | store nowMs req => exact ⟨nowMs, .inl ⟨rfl, rfl⟩⟩
  | putBlob content => exact ⟨0, .inl ⟨rfl, rfl⟩⟩
  | getBlob hash => exact ⟨0, .inl ⟨rfl, rfl⟩⟩
  | hasBlob hash => exact ⟨0, .inl ⟨rfl, rfl⟩⟩
  | listBlobs => exact ⟨0, .inl ⟨rfl, rfl⟩⟩
  | deleteBlob hash => exact ⟨0, .inl ⟨rfl, rfl⟩⟩
  | failed req e => exact ⟨0, .inr ⟨⟨e, rfl⟩, .inl rfl⟩⟩
  | lost served e ih =>
    obtain ⟨nowMs, ⟨-, moved⟩ | ⟨-, moved⟩⟩ := ih
    · exact ⟨nowMs, .inr ⟨⟨e, rfl⟩, .inr moved⟩⟩
    · exact ⟨nowMs, .inr ⟨⟨e, rfl⟩, moved⟩⟩

/-- Every blob is stored under the hash of its content. -/
def Addressed (w : Backend) : Prop :=
  ∀ (hash : ContentHash) (bytes : Bytes), w.blobs[hash]? = some bytes → ContentHash.of bytes = hash

/-- No call files a blob under another hash. -/
theorem Served.addressed {w w' : Backend} {req : BackendReq} {answer : req.Ans}
    (served : w.Served req answer w') (addressed : w.Addressed) : w'.Addressed := by
  induction served with
  | putBlob content =>
    intro hash bytes held
    rw [Backend.putBlob, Std.ExtTreeMap.getElem?_insertIfNew] at held
    split at held
    next new =>
      cases held
      exact Std.LawfulEqCmp.eq_of_compare new.1
    next => exact addressed hash bytes held
  | deleteBlob hash =>
    intro hash' bytes held
    rw [Backend.deleteBlob, Std.ExtTreeMap.getElem?_erase] at held
    split at held
    next => cases held
    next => exact addressed hash' bytes held
  | lost _ _ ih => exact ih
  | _ => exact addressed

end Backend

end Gonzalo.Core
