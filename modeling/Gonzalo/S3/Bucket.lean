import Gonzalo.Core.MemStore
import Gonzalo.Core.Paths
import Gonzalo.Core.RecordJson
import Gonzalo.Lib.Pool

/-!
# An S3 bucket

What `gonzalo-store-s3/src/lib.rs` asks of a bucket, one request at a time. A bucket holds
record objects, tombstone markers beside them and one flag for each collection whose
tombstones all carry a marker. A conditional request applies or answers that it lost a
race; it may also apply and have its response lost, which the caller sees as an error or,
after the SDK's own retry, as a lost race.

The set of collections a store remembers as flagged is its own, shared by the calls that
run on it: `cached` and `remember` look at it and add to it.
-/

set_option autoImplicit false

namespace Gonzalo.S3
open Gonzalo.Core Gonzalo.Lib

/-- The ETag of an object, a function of its bytes: of a record's contents, or of the
revision that is a marker's body. -/
class Etags (β : Type) where
  Tag : Type
  record : β → Tag
  marker : Revision → Tag

/-- The ETag of a marker that names `revision`. -/
def markerTag (β : Type) [Etags β] (revision : Revision) : Etags.Tag β := Etags.marker revision

/-- `Precondition`. -/
inductive Precondition (E : Type) where
  | ifAbsent
  | ifMatch (tag : E)

/-- `precondition`. -/
def precondition {E : Type} : Option E → Precondition E
  | some tag => .ifMatch tag
  | none => .ifAbsent

/-- `RaceKind`. -/
inductive RaceKind where
  | settled | inFlight

/-- `WriteOutcome`. -/
inductive WriteOutcome where
  | applied
  | lostRace (kind : RaceKind)

/-- A namespace and a collection of it. -/
abbrev Collection : Type := String × String

/-- The collection of a key. -/
def collectionOf (key : RecordKey) : Collection := (key.ns, key.collection)

/-- `marker_key`. -/
def markerKey (key : RecordKey) : String := objectKey key ++ ".tombstone"

/-- One page of a listing, its names parsed. -/
structure Page (E : Type) where
  records : List RecordKey
  markers : List (RecordKey × E)
  next : Option String

/-- The requests of a store. -/
inductive S3Req (β : Type) [Etags β] where
  | getObject (key : RecordKey)
  | putObject (record : Record) (contents : β) (pre : Precondition (Etags.Tag β))
  | deleteObject (key : RecordKey) (tag : Etags.Tag β)
  | listObjects (under : KeyPrefix) (token : Option String)
  | headFlag (coll : Collection)
  | putFlag (coll : Collection)
  | putMarker (key : RecordKey) (revision : Revision)
  | deleteMarker (key : RecordKey) (tag : Etags.Tag β)
  | cached (coll : Collection)
  | remember (coll : Collection)

/-- What a request answers that does not fail. -/
@[reducible] def S3Req.Found {β : Type} [Etags β] : S3Req β → Type
  | getObject _ => Option (β × Etags.Tag β)
  | putObject _ _ _ | deleteObject _ _ => WriteOutcome
  | listObjects _ _ => Page (Etags.Tag β)
  | headFlag _ | cached _ => Bool
  | putFlag _ | putMarker _ _ | deleteMarker _ _ | remember _ => Unit

abbrev s3Interface (β : Type) [Etags β] : Interface := ⟨S3Req β, fun req => Except CoreError req.Found⟩

abbrev S3Program (β : Type) [Etags β] (α : Type) : Type := Program (s3Interface β) CoreError α

variable {β : Type} [Etags β]

/-- Send one request and look at its error. -/
def attempt (req : S3Req β) : S3Program β (Except CoreError req.Found) :=
  @Program.request (s3Interface β) _ req

/-- Send one request and propagate its error, as `?` does. -/
def send (req : S3Req β) : S3Program β req.Found := attempt req >>= .ofExcept

structure Bucket (β : Type) where
  records : Std.ExtTreeMap RecordKey β compare
  markers : Std.ExtTreeMap RecordKey Revision compare
  flags : Finset Collection

namespace Bucket

/-- Whether a conditional write may replace this object. -/
def Admits (pre : Precondition (Etags.Tag β)) (object : Option β) : Prop :=
  match pre with
  | .ifAbsent => object = none
  | .ifMatch tag => ∃ contents, object = some contents ∧ Etags.record contents = tag

/-- Whether a name lies on the page between two continuation tokens. -/
def Covered (token next : Option String) (name : String) : Prop :=
  (∀ t, token = some t → t < name) ∧ ∀ n, next = some n → name ≤ n

/-- The page that a listing answers. -/
structure Lists (b : Bucket β) (under : KeyPrefix) (token : Option String)
    (page : Page (Etags.Tag β)) : Prop where
  records : ∀ key, key ∈ page.records ↔
    (b.records[key]?).isSome ∧ under.matches key ∧ Covered token page.next (objectKey key)
  distinct : page.records.Nodup
  markers : ∀ key tag, (key, tag) ∈ page.markers ↔
    ∃ revision, b.markers[key]? = some revision ∧ markerTag β revision = tag ∧
      under.matches key ∧ Covered token page.next (markerKey key)

/-- The change a request makes when it takes effect. -/
inductive Takes (b : Bucket β) : S3Req β → Bucket β → Prop
  | putObject {record : Record} {contents : β} {pre : Precondition (Etags.Tag β)}
      (admits : Admits pre b.records[record.key]?) :
      Takes b (.putObject record contents pre)
        { b with records := b.records.insert record.key contents }
  | deleteObject {key : RecordKey} {tag : Etags.Tag β}
      (admits : Admits (.ifMatch tag) b.records[key]?) :
      Takes b (.deleteObject key tag) { b with records := b.records.erase key }
  | putFlag (coll : Collection) : Takes b (.putFlag coll) { b with flags := insert coll b.flags }
  | putMarker (key : RecordKey) (revision : Revision) :
      Takes b (.putMarker key revision) { b with markers := b.markers.insert key revision }
  | deleteMarker {key : RecordKey} {tag : Etags.Tag β} {revision : Revision}
      (stands : b.markers[key]? = some revision) (same : markerTag β revision = tag) :
      Takes b (.deleteMarker key tag) { b with markers := b.markers.erase key }

end Bucket

/-- A bucket, and the flagged collections each store on it remembers. -/
structure World (β σ : Type) where
  bucket : Bucket β
  marked : σ → Finset Collection

variable {σ : Type} [DecidableEq σ]

/-- How a request of a call that runs on `store` may be answered. -/
inductive Served (store : σ) (w : World β σ) :
    (req : S3Req β) → Except CoreError req.Found → World β σ → Prop
  | got (key : RecordKey) :
      Served store w (.getObject key)
        (.ok ((w.bucket.records[key]?).map fun contents => (contents, Etags.record contents))) w
  | put {record : Record} {contents : β} {pre : Precondition (Etags.Tag β)} {b : Bucket β}
      (takes : w.bucket.Takes (.putObject record contents pre) b) :
      Served store w (.putObject record contents pre) (.ok .applied) { w with bucket := b }
  | putRefused {record : Record} {contents : β} {pre : Precondition (Etags.Tag β)}
      (refuses : ¬ Bucket.Admits pre w.bucket.records[record.key]?) :
      Served store w (.putObject record contents pre) (.ok (.lostRace .settled)) w
  | putBusy (record : Record) (contents : β) (pre : Precondition (Etags.Tag β)) :
      Served store w (.putObject record contents pre) (.ok (.lostRace .inFlight)) w
  | putUnseen {record : Record} {contents : β} {pre : Precondition (Etags.Tag β)} {b : Bucket β}
      (kind : RaceKind) (takes : w.bucket.Takes (.putObject record contents pre) b) :
      Served store w (.putObject record contents pre) (.ok (.lostRace kind)) { w with bucket := b }
  | deleted {key : RecordKey} {tag : Etags.Tag β} {b : Bucket β}
      (takes : w.bucket.Takes (.deleteObject key tag) b) :
      Served store w (.deleteObject key tag) (.ok .applied) { w with bucket := b }
  | deleteRefused {key : RecordKey} {tag : Etags.Tag β}
      (refuses : ¬ Bucket.Admits (.ifMatch tag) w.bucket.records[key]?) :
      Served store w (.deleteObject key tag) (.ok (.lostRace .settled)) w
  | deleteBusy (key : RecordKey) (tag : Etags.Tag β) :
      Served store w (.deleteObject key tag) (.ok (.lostRace .inFlight)) w
  | deleteUnseen {key : RecordKey} {tag : Etags.Tag β} {b : Bucket β} (kind : RaceKind)
      (takes : w.bucket.Takes (.deleteObject key tag) b) :
      Served store w (.deleteObject key tag) (.ok (.lostRace kind)) { w with bucket := b }
  | listed {under : KeyPrefix} {token : Option String} {page : Page (Etags.Tag β)}
      (lists : w.bucket.Lists under token page) :
      Served store w (.listObjects under token) (.ok page) w
  | head (coll : Collection) :
      Served store w (.headFlag coll) (.ok (decide (coll ∈ w.bucket.flags))) w
  | flagged {coll : Collection} {b : Bucket β} (takes : w.bucket.Takes (.putFlag coll) b) :
      Served store w (.putFlag coll) (.ok ()) { w with bucket := b }
  | markerPut {key : RecordKey} {revision : Revision} {b : Bucket β}
      (takes : w.bucket.Takes (.putMarker key revision) b) :
      Served store w (.putMarker key revision) (.ok ()) { w with bucket := b }
  | markerDeleted {key : RecordKey} {tag : Etags.Tag β} {b : Bucket β}
      (takes : w.bucket.Takes (.deleteMarker key tag) b) :
      Served store w (.deleteMarker key tag) (.ok ()) { w with bucket := b }
  | markerKept {key : RecordKey} {tag : Etags.Tag β}
      (stays : ∀ b, ¬ w.bucket.Takes (.deleteMarker key tag) b) :
      Served store w (.deleteMarker key tag) (.ok ()) w
  | cached (coll : Collection) :
      Served store w (.cached coll) (.ok (decide (coll ∈ w.marked store))) w
  | remembered (coll : Collection) :
      Served store w (.remember coll) (.ok ())
        { w with marked := Function.update w.marked store (insert coll (w.marked store)) }
  | failed (req : S3Req β) (message : String) :
      Served store w req (.error (.backend message)) w
  | lost {req : S3Req β} {b : Bucket β} (message : String) (takes : w.bucket.Takes req b) :
      Served store w req (.error (.backend message)) { w with bucket := b }

end Gonzalo.S3
