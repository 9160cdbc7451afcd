import Gonzalo.Fs.Views

/-!
# The instant of a call

Every call of `gonzalo-store-fs/src/lib.rs` but a listing answers what it had decided at its
instant, or fails with an error of the file system or of a record's text. A listing only
reads.
-/

set_option autoImplicit false

namespace Gonzalo.Fs
open Gonzalo.Core Gonzalo.Lib

/-- An error of the file system, or of the text of a record. -/
def FromOutside (e : CoreError) : Prop := ∃ text, e = .backend text ∨ e = .serde text

theorem fromOutside_backend (e : IoError) : FromOutside (backendError e) := ⟨_, .inl rfl⟩

/-- A call that walks over directories. -/
def IsListing : BackendReq → Prop
  | .store (.list _) | .store (.listRaw _) | .listBlobs => True
  | _ => False

/-- The layout holds what the call is about apart. -/
def Separate : BackendReq → Prop
  | .store (.get key) | .store (.getRaw key) | .store (.deleteAs key _ _)
  | .store (.purge key _) => Apart key
  | .store (.put record _) | .store (.putRaw record _) => Apart record.key
  | .getBlob hash | .hasBlob hash | .deleteBlob hash => hash.Hex
  | _ => True

/-- The call has answered what it had its instant with, or failed from outside. -/
def Ends (call : BackendReq) (v : FsView) (answer : call.Ans) : Prop :=
  v.status = .answered call answer ∨ ∃ e, FromOutside e ∧ answer = call.failed e

variable [Blake3] [RecordJson Bytes] {cap : Nat} {α : Type}

/-! ### Requests -/

/-- What a call does after its read, under its lock. -/
def carryOut (path : Path) : Decision (Except CoreError α) → DiskProgram α
  | .answer a => .ofExcept a
  | .write stored a => do
    onDisk (writeDurable path stored)
    .ofExcept a
  | .remove a => do
    removeDurable path
    .ofExcept a

/-- Lock the record, read it, decide and carry it out. -/
def locked (key : RecordKey) (decide : Option Record → Decision (Except CoreError α)) :
    DiskProgram α := do
  onDisk (lockRecord (recordPath key))
  let current ← onDisk (readCurrent (recordPath key))
  carryOut (recordPath key) (decide current)

section Locked

variable {call : BackendReq} {around : Around} {key : RecordKey}
  {decide : Option Record → Decision call.Ans} {post : FsView → Except CoreError α → Prop}

omit [RecordJson Bytes] in
theorem landing_record (about : decides cap around.nowMs call = some (key, decide))
    {current : Option Record} {a : call.Ans} (landed : (decide current).landing? = some a) :
    landing cap around.nowMs (some current) call = some a := by
  unfold landing
  split
  · cases about
  · cases about
  · simp [about, landed]

/-- The view of a call that holds the lock of its record. -/
abbrev holding (call : BackendReq) (around : Around) (key : RecordKey)
    (read : Option (Option Record)) (done : Option call.Ans) : FsView :=
  ⟨call, around, some (lockPath (recordPath key)), read, none, done⟩

end Locked

/-! ### Calls on records -/

section Records

variable (call : BackendReq) (around : Around) {key : RecordKey}

/-- The same decision with its answers read as another type. -/
def Decision.map {β : Type} (f : α → β) : Decision α → Decision β
  | answer a => .answer (f a)
  | write stored a => .write stored (f a)
  | remove a => .remove (f a)

end Records

/-! ### Calls on blobs -/

section Blobs

variable {around : Around} {v : FsView} {post : FsView → Except CoreError α → Prop}

theorem wp_getBlob (hash : ContentHash) :
    Wp (fsCalls cap) (fun v result => Ends (.getBlob hash) v result)
      (.started (.getBlob hash) around) (onDisk (getBlob hash)) := by
  have answered : ∀ contents, Ends (.getBlob hash)
      ((FsView.started (.getBlob hash) around).seen cap (blobPath hash) contents)
        (.ok contents) := by
    intro contents
    refine .inl ?_
    simp [FsView.seen, shown, decides, blobShown, FsView.started, FsView.status]
  refine ⟨rfl, fun answer v' turned => ?_⟩
  subst turned
  cases answer with
  | ok bytes => exact answered (some bytes)
  | error e =>
    cases e with
    | notFound => exact answered none
    | other text => exact .inr ⟨_, fromOutside_backend _, rfl⟩

end Blobs

/-! ### Listings -/

/-- A process that only looks. -/
def readOnly : Contract (diskInterface Bytes) Unit where
  guard _ req := match req with
    | .fs req => req.Reads
    | .modified _ => True
    | .removeFile _ => False
  turn _ _ _ _ := True

/-- The program looks at the file system and nothing else. -/
def Looks (p : DiskProgram α) : Prop := Wp readOnly (fun _ _ => True) () p

section Listings

omit [RecordJson Bytes] [Blake3] in
theorem Looks.bind {β : Type} {p : DiskProgram α} {f : α → DiskProgram β} (first : Looks p)
    (second : ∀ value, Looks (f value)) : Looks (p >>= f) :=
  Wp.bind first (fun _ value _ => second value) fun _ _ _ => trivial

/-- A listing learns nothing. -/
theorem listing_after (cap : Nat) {v : FsView} (listing : IsListing v.call) (idle : v.done = none)
    {req : DiskReq Bytes} (looks : readOnly.guard () req) (answer : Except IoError req.Answer) :
    v.Guard cap req ∧ (v.after cap req answer).call = v.call ∧
      (v.after cap req answer).done = none := by
  have unshown : ∀ path contents, (v.seen cap path contents).call = v.call ∧
      (v.seen cap path contents).done = none := by
    intro path contents
    obtain ⟨call, around, lock, read, temp, done⟩ := v
    cases call with
    | store req => cases req <;> first | exact listing.elim | exact ⟨rfl, rfl⟩
    | listBlobs => exact ⟨rfl, rfl⟩
    | _ => exact listing.elim
  have absent : ∀ path found, presenceShown v.call path found = none := by
    intro path found
    obtain ⟨call, around, lock, read, temp, done⟩ := v
    cases call with
    | store req => rfl
    | listBlobs => rfl
    | _ => exact listing.elim
  cases req with
  | removeFile => exact looks.elim
  | modified => exact ⟨trivial, rfl, idle⟩
  | fs req =>
    cases req with
    | read path =>
      refine ⟨idle, ?_⟩
      cases answer with
      | ok bytes => exact unshown path (some bytes)
      | error e =>
        cases e with
        | notFound => exact unshown path none
        | other text => exact ⟨rfl, idle⟩
    | tryExists path =>
      cases answer with
      | ok found => exact ⟨idle, rfl, absent path found⟩
      | error e => exact ⟨idle, rfl, idle⟩
    | syncDir | readDir => exact ⟨trivial, rfl, idle⟩
    | _ => exact looks.elim

theorem Looks.covered {p : DiskProgram α} (looks : Looks p) {v : FsView}
    (listing : IsListing v.call) (idle : v.done = none) {post : FsView → Except CoreError α → Prop}
    (ends : ∀ v result, post v result) : Wp (fsCalls cap) post v p := by
  induction p generalizing v with
  | done value => exact ends v _
  | fail error => exact ends v _
  | ask req next ih =>
    refine ⟨(listing_after cap listing idle looks.1 (.error .notFound)).1,
      fun answer v' turned => ?_⟩
    subst turned
    obtain ⟨-, own, idle'⟩ := listing_after cap listing idle looks.1 answer
    exact ih answer (looks.2 answer () trivial) (own ▸ listing) idle'

end Listings

/-! ### Every call -/

end Gonzalo.Fs
