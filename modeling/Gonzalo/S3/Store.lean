import Gonzalo.S3.Bucket

/-!
# The S3 store

The operations of `gonzalo-store-s3/src/lib.rs` as programs over the requests of a bucket:
the compare-and-swap loop behind every write, and `list`, which tells tombstones by their
markers, repairs a collection that is not flagged yet and removes markers that mark
nothing. The answers of all calls are of one type.

What a call takes from outside is an argument: the clock at each attempt of a write, the
order in which the reads of a batch happen, and how many pages a listing may have.
-/

set_option autoImplicit false

namespace Gonzalo.S3
open Gonzalo.Core Gonzalo.Lib

/-- What a call of the `Store` trait answers. -/
inductive Answer where
  | record (record : Option Record)
  | listed (keys : List RecordKey)
  | listedRaw (keys : List RecordKey)
  | put (result : PutResult)
  | deleted (result : DeleteResult)

/-- `Planned`. -/
inductive Planned (τ : Type) where
  | finish (answer : τ)
  | put (record : Record) (answer : τ)
  | remove (answer : τ)

/-- `put_step`. -/
def putStep (key : RecordKey) : PutPlan → Except CoreError (Planned Answer)
  | .write record => .ok (.put record (.put (.committed record.revision)))
  | .conflict conflict => .ok (.finish (.put (.conflict conflict)))
  | .notFound => .error (.notFound key)
  | .rejected reason => .error (.invalid reason)

/-- `delete_step`. -/
def deleteStep : DeletePlan → Planned Answer
  | .write tombstone => .put tombstone (.deleted .deleted)
  | .noop => .finish (.deleted .deleted)
  | .conflict conflict => .finish (.deleted (.conflict conflict))

/-- `purge_step`. -/
def purgeStep : PurgePlan → Planned Answer
  | .remove => .remove (.deleted .deleted)
  | .noop => .finish (.deleted .deleted)
  | .conflict conflict => .finish (.deleted (.conflict conflict))

/-- `MAX_WRITE_ATTEMPTS`. -/
def maxWriteAttempts : Nat := 8

/-- `LIST_READ_CONCURRENCY`. -/
def listReadConcurrency : Nat := 16

/-- `own_write_landed`. -/
def ownWriteLanded (sent : Record) (current : Option Record) : Bool :=
  current.any (· = sent)

/-- `Liveness`. -/
inductive Liveness where
  | live
  | tombstoned (revision : Revision)
  | absent

/-- `listed_as_live`. -/
def listedAsLive : Except CoreError (Option Record) → Except CoreError Liveness
  | .ok (some record) => .ok (if record.isTombstone then .tombstoned record.revision else .live)
  | .ok none => .ok .absent
  | .error (.serde _) => .ok .live
  | .error e => .error e

/-- `visible`. -/
def visible (record : Option Record) : Option Record := record.filter fun r => !r.isTombstone

/-- `Listing`. -/
structure Listing (E : Type) where
  records : List RecordKey := []
  markers : Std.ExtTreeMap RecordKey E compare := ∅

namespace Listing

variable {E : Type}

/-- The objects of one page that the prefix admits. -/
def add (self : Listing E) (keys : KeyPrefix) (page : Page E) : Listing E where
  records := self.records ++ page.records.filter keys.matches
  markers := page.markers.foldl
    (fun markers entry => if keys.matches entry.1 then markers.insert entry.1 entry.2 else markers)
    self.markers

/-- The collections of a listing, in order. -/
def collections (self : Listing E) : List Collection :=
  ((self.records.map collectionOf ++ self.markers.keys.map collectionOf).dedup).mergeSort
    fun a b => decide (toLex a ≤ toLex b)

/-- The listed records of a collection. -/
def recordsOf (self : Listing E) (coll : Collection) : List RecordKey :=
  self.records.filter fun key => collectionOf key = coll

/-- The markers of a collection whose record is not listed. -/
def orphansOf (self : Listing E) (coll : Collection) : List (RecordKey × E) :=
  self.markers.toList.filter fun entry =>
    collectionOf entry.1 = coll ∧ entry.1 ∉ self.recordsOf coll

end Listing

variable {β : Type} [RecordJson β] [Etags β]

/-- What a read of an object comes to. -/
def readResult (answer : Except CoreError (Option (β × Etags.Tag β))) :
    Except CoreError (Option (Record × Etags.Tag β)) :=
  answer.bind fun found => match found with
    | none => .ok none
    | some (contents, tag) => (decode contents).map fun record => some (record, tag)

/-- `read_with_etag`. -/
def readWithEtag (key : RecordKey) : S3Program β (Option (Record × Etags.Tag β)) := do
  let answer ← attempt (.getObject key)
  Program.ofExcept (readResult answer)

/-- `read`. -/
def read (key : RecordKey) : S3Program β (Option Record) := do
  let current ← readWithEtag key
  pure (current.map Prod.fst)

/-- `put_record_if`. -/
def putRecordIf (record : Record) (pre : Precondition (Etags.Tag β)) :
    S3Program β WriteOutcome := do
  let contents ← Program.ofExcept (encode record)
  send (.putObject record contents pre)

/-- `delete_record_if_match`, with the tag that was read. Without one the request cannot
match. -/
def deleteRecordIfMatch (key : RecordKey) : Option (Etags.Tag β) → S3Program β WriteOutcome
  | some tag => send (.deleteObject key tag)
  | none => pure (.lostRace .settled)

/-- `put_marker`, before a tombstone only. -/
def markTombstone (key : RecordKey) (record : Record) : S3Program β Unit :=
  if record.isTombstone then send (.putMarker key record.revision) else pure ()

/-- The end of an attempt. -/
def settle {τ : Type} (answer : τ) (retry : S3Program β τ) : WriteOutcome → S3Program β τ
  | .applied => pure answer
  | .lostRace _ => retry

/-- The action that carries a plan out. `retry` is told what this attempt sent. -/
def carryOut {τ : Type} (key : RecordKey) (tag : Option (Etags.Tag β))
    (retry : Option (Record × τ) → S3Program β τ) : Planned τ → S3Program β τ
  | .finish answer => pure answer
  | .put record answer => do
    markTombstone key record
    let outcome ← putRecordIf record (precondition tag)
    settle answer (retry (some (record, answer))) outcome
  | .remove answer => do
    let outcome ← deleteRecordIfMatch key tag
    settle answer (retry none) outcome

/-- Go on, unless the record that was read is the one the previous attempt sent. -/
def unlessLanded {τ : Type} (pending : Option (Record × τ)) (current : Option Record)
    (next : S3Program β τ) : S3Program β τ :=
  match pending with
  | some (sent, answer) => if ownWriteLanded sent current then pure answer else next
  | none => next

/-- The loop of `write_planned`, with the attempts that are left and what the previous
one sent. The clock is read once in each attempt. -/
def writePlanned {τ : Type} (key : RecordKey)
    (plan : Int → Option Record → Except CoreError (Planned τ)) (clock : Nat → Int) :
    Nat → Option (Record × τ) → S3Program β τ
  | 0, _ => .fail (.backend ("s3: conditional write for " ++ key.ns ++ "/" ++ key.collection ++
      "/" ++ key.id ++ " lost " ++ toString maxWriteAttempts ++ " consecutive races"))
  | attempts + 1, pending => do
    let current ← readWithEtag key
    unlessLanded pending (current.map Prod.fst) do
      let planned ← Program.ofExcept (plan (clock attempts) (current.map Prod.fst))
      carryOut key (current.map Prod.snd) (fun sent => writePlanned key plan clock attempts sent)
        planned

/-- The prefix a listing asks S3 for: a collection only below its namespace. -/
def s3Prefix (keys : KeyPrefix) : KeyPrefix :=
  { keys with collection := if keys.ns.isSome then keys.collection else none }

/-- `list_objects`, up to so many pages. -/
def listObjects (keys : KeyPrefix) :
    Nat → Option String → Listing (Etags.Tag β) → S3Program β (Listing (Etags.Tag β))
  | 0, _, _ => .fail (.backend "s3: listing has more pages")
  | pages + 1, token, out => do
    let page ← send (.listObjects (s3Prefix keys) token)
    match page.next with
    | some token => listObjects keys pages (some token) (out.add keys page)
    | none => pure (out.add keys page)

/-- `collection_marked`. -/
def collectionMarked (coll : Collection) : S3Program β Bool := do
  let known : Bool ← send (.cached coll)
  if known then pure true
  else do
    let found : Bool ← send (.headFlag coll)
    if found then do
      send (.remember coll)
      pure true
    else pure false

/-- `mark_collection`. -/
def markCollection (coll : Collection) : S3Program β Unit := do
  send (.putFlag coll)
  send (.remember coll)

/-- The read of one key by `read_liveness`. -/
def readListed (live : Std.ExtTreeMap RecordKey Liveness compare) (key : RecordKey) :
    S3Program β (Std.ExtTreeMap RecordKey Liveness compare) := do
  let answer ← attempt (.getObject key)
  let liveness ← Program.ofExcept (listedAsLive ((readResult answer).map (Option.map Prod.fst)))
  pure (live.insert key liveness)

/-- `read_liveness`: the reads of a batch happen in the order `schedule` gives them. -/
def readLiveness (schedule : List RecordKey → List RecordKey) (keys : List RecordKey) :
    S3Program β (Std.ExtTreeMap RecordKey Liveness compare) :=
  ((keys.toChunks listReadConcurrency).flatMap schedule).foldlM readListed ∅

/-- `delete_marker_if_match`. -/
def deleteMarkerIfMatch (key : RecordKey) (tag : Etags.Tag β) : S3Program β Unit :=
  send (.deleteMarker key tag)

/-- The marker of a key that was listed, if any, is removed. -/
def dropMarker (listing : Listing (Etags.Tag β)) (key : RecordKey) : S3Program β Unit :=
  match listing.markers[key]? with
  | some tag => deleteMarkerIfMatch key tag
  | none => pure ()

/-- What `list` does with one listed key. -/
def listKey (listing : Listing (Etags.Tag β)) (live : Std.ExtTreeMap RecordKey Liveness compare)
    (out : List RecordKey) (key : RecordKey) : S3Program β (List RecordKey) :=
  match live[key]? with
  | none => pure (out ++ [key])
  | some .live => do
    dropMarker listing key
    pure (out ++ [key])
  | some (.tombstoned revision) =>
    if key ∈ listing.markers then pure out
    else do
      send (.putMarker key revision)
      pure out
  | some .absent => do
    dropMarker listing key
    pure out

/-- What `list` does with one collection. -/
def listCollection (schedule : List RecordKey → List RecordKey) (listing : Listing (Etags.Tag β))
    (out : List RecordKey) (coll : Collection) : S3Program β (List RecordKey) := do
  let marked ← collectionMarked coll
  let keys := listing.recordsOf coll
  let toRead := if marked then keys.filter (· ∈ listing.markers) else keys
  let live ← readLiveness schedule toRead
  let out ← keys.foldlM (listKey listing live) out
  (listing.orphansOf coll).forM fun orphan => deleteMarkerIfMatch orphan.1 orphan.2
  if marked then pure out
  else do
    markCollection coll
    pure out

/-- `list`. -/
def list (schedule : List RecordKey → List RecordKey) (pages : Nat) (keys : KeyPrefix) :
    S3Program β (List RecordKey) := do
  let listing ← listObjects keys pages none {}
  let out ← listing.collections.foldlM (listCollection schedule listing) []
  pure (out.mergeSort fun a b => decide (a ≤ b))

/-- What a call takes from outside. -/
structure Circumstances where
  clock : Nat → Int
  schedule : List RecordKey → List RecordKey
  pages : Nat
  permutes : ∀ keys, (schedule keys).Perm keys

variable [Blake3]

omit [RecordJson β] [Etags β] in
/-- The key a write is about, and its planner. -/
def planOf (cap : Nat) :
    StoreReq → Option (RecordKey × (Int → Option Record → Except CoreError (Planned Answer)))
  | .put record expected =>
    some (record.key, fun nowMs current =>
      putStep record.key (planPut current record expected nowMs cap))
  | .putRaw record expected =>
    some (record.key, fun nowMs current =>
      putStep record.key (planPutRaw current record expected nowMs cap))
  | .deleteAs key expected author =>
    some (key, fun nowMs current =>
      .ok (deleteStep (planDelete current expected nowMs cap author)))
  | .purge key expected => some (key, fun _ current => .ok (purgeStep (planPurge current expected)))
  | .get _ | .list _ | .getRaw _ | .listRaw _ => none

/-- The calls of the `Store` trait. -/
def call (cap : Nat) (around : Circumstances) : StoreReq → S3Program β Answer
  | .get key => do
    let record ← read key
    pure (.record (visible record))
  | .list keys => do
    let listed ← list around.schedule around.pages keys
    pure (.listed listed)
  | .put record expected =>
    writePlanned record.key
      (fun nowMs current => putStep record.key (planPut current record expected nowMs cap))
      around.clock maxWriteAttempts none
  | .deleteAs key expected author =>
    writePlanned key
      (fun nowMs current => .ok (deleteStep (planDelete current expected nowMs cap author)))
      around.clock maxWriteAttempts none
  | .getRaw key => do
    let record ← read key
    pure (.record record)
  | .listRaw keys => do
    let listing ← listObjects keys around.pages none {}
    pure (.listedRaw listing.records)
  | .putRaw record expected =>
    writePlanned record.key
      (fun nowMs current => putStep record.key (planPutRaw current record expected nowMs cap))
      around.clock maxWriteAttempts none
  | .purge key expected =>
    writePlanned key (fun _ current => .ok (purgeStep (planPurge current expected)))
      around.clock maxWriteAttempts none

theorem call_of_planOf {cap : Nat} {around : Circumstances} {req : StoreReq} {key : RecordKey}
    {plan : Int → Option Record → Except CoreError (Planned Answer)}
    (planned : planOf cap req = some (key, plan)) :
    (call cap around req : S3Program β Answer) =
      writePlanned key plan around.clock maxWriteAttempts none := by
  cases req <;> cases planned <;> rfl

end Gonzalo.S3
