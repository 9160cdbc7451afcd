import Gonzalo.Fs.Calls
import Gonzalo.Fs.Specs
import Gonzalo.Lib.Linearize

/-!
# What a call of the file-system store knows

A call of `gonzalo-store-fs/src/lib.rs` among others, request by request. `FsView` is what it
has learnt: which lock it holds, what record it read under that lock, what it has written to
a temporary file, and what it answers once it has had its instant. A call that decides to
write nothing has its instant with the read, any other one when the tree changes.
-/

set_option autoImplicit false

namespace Gonzalo.Fs
open Gonzalo.Core Gonzalo.Lib

/-! ## What a call decides -/

/-- What a call makes of the record at its key. -/
inductive Decision (α : Type) where
  | answer (a : α)
  | write (stored : Record) (a : α)
  | remove (a : α)

/-- The answer of a call that changes nothing. -/
def Decision.answer? {α : Type} : Decision α → Option α
  | answer a => some a
  | _ => none

/-- The answer of a call that changes something. -/
def Decision.landing? {α : Type} : Decision α → Option α
  | write _ a | remove a => some a
  | answer _ => none

def putDecision (key : RecordKey) : PutPlan → Decision (Except CoreError PutResult)
  | .write stored => .write stored (.ok (.committed stored.revision))
  | .conflict c => .answer (.ok (.conflict c))
  | .notFound => .answer (.error (.notFound key))
  | .rejected reason => .answer (.error (.invalid reason))

def deleteDecision : DeletePlan → Decision (Except CoreError DeleteResult)
  | .write tombstone => .write tombstone (.ok .deleted)
  | .noop => .answer (.ok .deleted)
  | .conflict c => .answer (.ok (.conflict c))

def purgeDecision : PurgePlan → Decision (Except CoreError DeleteResult)
  | .remove => .remove (.ok .deleted)
  | .noop => .answer (.ok .deleted)
  | .conflict c => .answer (.ok (.conflict c))

section Decides

variable [Blake3] {cap : Nat} {nowMs : Int} {call : BackendReq} {key : RecordKey}
  {decide : Option Record → Decision call.Ans} {current : Option Record}

/-- The key a call is about, and what it decides on the record that is there. -/
def decides (cap : Nat) (nowMs : Int) :
    (call : BackendReq) → Option (RecordKey × (Option Record → Decision call.Ans))
  | .store (.get key) =>
    some (key, fun current => .answer (.ok (current.filter fun r => !r.isTombstone)))
  | .store (.getRaw key) => some (key, fun current => .answer (.ok current))
  | .store (.put record expected) => some (record.key, fun current =>
      putDecision record.key (planPut current record expected nowMs cap))
  | .store (.putRaw record expected) => some (record.key, fun current =>
      putDecision record.key (planPutRaw current record expected nowMs cap))
  | .store (.deleteAs key expected author) => some (key, fun current =>
      deleteDecision (planDelete current expected nowMs cap author))
  | .store (.purge key expected) =>
    some (key, fun current => purgeDecision (planPurge current expected))
  | _ => none

/-- A decision carried out on a backend, at a key. -/
def Decision.carriedOut {α : Type} (w : Backend) (key : RecordKey) : Decision α → Backend × α
  | answer a => (w, a)
  | write stored a => ({ w with store := w.store.insert stored }, a)
  | remove a => ({ w with store := w.store.erase key }, a)

/-- A backend decides as the call does. -/
theorem reply_decides {w : Backend} (about : decides w.store.cap nowMs call = some (key, decide)) :
    w.reply nowMs call = (decide (w.store.getRaw key)).carriedOut w key := by
  cases call with
  | store req =>
    cases req with
    | get | getRaw =>
      cases about
      rfl
    | put record expected =>
      cases about
      simp only [Backend.reply, MemStore.serve, MemStore.put, MemStore.write]
      cases planPut (w.store.getRaw record.key) record expected nowMs w.store.cap <;> rfl
    | putRaw record expected =>
      cases about
      simp only [Backend.reply, MemStore.serve, MemStore.putRaw, MemStore.write]
      cases planPutRaw (w.store.getRaw record.key) record expected nowMs w.store.cap <;> rfl
    | deleteAs key expected author =>
      cases about
      simp only [Backend.reply, MemStore.serve, MemStore.deleteAs]
      cases planDelete (w.store.getRaw key) expected nowMs w.store.cap author <;> rfl
    | purge key expected =>
      cases about
      simp only [Backend.reply, MemStore.serve, MemStore.purge]
      cases planPurge (w.store.getRaw key) expected <;> rfl
    | list | listRaw => cases about
  | _ => cases about

omit [Blake3] in
theorem putDecision_write {plan : PutPlan} {stored : Record} {a : Except CoreError PutResult}
    (planned : putDecision key plan = .write stored a) : plan = .write stored := by
  cases plan <;> cases planned
  rfl

omit [Blake3] in
theorem deleteDecision_write {plan : DeletePlan} {stored : Record}
    {a : Except CoreError DeleteResult} (planned : deleteDecision plan = .write stored a) :
    plan = .write stored := by
  cases plan <;> cases planned
  rfl

/-- What is written belongs to the key. -/
theorem decides_key (about : decides cap nowMs call = some (key, decide)) {stored : Record}
    {a : call.Ans} (planned : decide current = .write stored a)
    (keyed : ∀ c, current = some c → c.key = key) : stored.key = key := by
  cases call with
  | store req =>
    cases req with
    | get | getRaw | list | listRaw => cases about <;> cases planned
    | put record expected =>
      cases about
      obtain ⟨-, ⟨-, -, rfl⟩ | ⟨_, -, -, -, -, rfl⟩ | ⟨_, -, -, -, rfl⟩⟩ :=
        planPut_write (putDecision_write planned) <;> rfl
    | putRaw record expected =>
      cases about
      obtain ⟨rfl, -⟩ := planPutRaw_write (putDecision_write planned)
      rfl
    | deleteAs key expected author =>
      cases about
      obtain ⟨c, rfl, -, -, rfl⟩ := planDelete_write (deleteDecision_write planned)
      exact keyed c rfl
    | purge key expected =>
      cases about
      cases plan : planPurge current expected <;> simp [plan, purgeDecision] at planned
  | _ => cases about

end Decides

/-! ## What a call knows -/

/-- A key that the layout holds apart from every other one and from the blobs. -/
def Apart (key : RecordKey) : Prop :=
  Nested key ∧ ¬ (key.ns = "blobs" ∧ ContentHash.Hex ⟨key.collection⟩)

structure FsView where
  call : BackendReq
  around : Around
  lock : Option Path
  read : Option (Option Record)
  temp : Option (Path × Bytes)
  done : Option call.Ans

/-- A call that has asked for nothing yet. -/
def FsView.started (call : BackendReq) (around : Around) : FsView :=
  ⟨call, around, none, none, none, none⟩

/-- What has become of the call. -/
def FsView.status (v : FsView) : CallStatus backendInterface :=
  match v.done with
  | none => .running v.call
  | some a => .answered v.call a

section Knowing

variable [Blake3] [RecordJson Bytes]

/-- The record in a file, or none where there is no file. -/
def recordIn : Option Bytes → Option (Option Record)
  | none => some none
  | some bytes => ((decode bytes : Except CoreError Record).toOption).map some

/-- The record that a read shows a call about its key. -/
def shown (cap : Nat) (nowMs : Int) (call : BackendReq) (path : Path) (contents : Option Bytes) :
    Option (Option Record × Decision call.Ans) :=
  match decides cap nowMs call with
  | none => none
  | some (key, decide) =>
    if path = recordPath key then (recordIn contents).map fun current => (current, decide current)
    else none

/-- What a read of a blob answers the call with. -/
def blobShown : (call : BackendReq) → Path → Option Bytes → Option call.Ans
  | .getBlob hash, path, contents => if path = blobPath hash then some (.ok contents) else none
  | _, _, _ => none

/-- What the presence of a file answers the call with. -/
def presenceShown : (call : BackendReq) → Path → Bool → Option call.Ans
  | .hasBlob hash, path, found => if path = blobPath hash then some (.ok found) else none
  | .putBlob content, path, found =>
    if path = blobPath (.of content) ∧ found = true then some (.ok (.of content)) else none
  | _, _, _ => none

/-- What a change of the tree answers the call with. -/
def landing (cap : Nat) (nowMs : Int) (read : Option (Option Record)) :
    (call : BackendReq) → Option call.Ans
  | .putBlob content => some (.ok (.of content))
  | .deleteBlob _ => some (.ok ())
  | call =>
    match read, decides cap nowMs call with
    | some current, some (_, decide) => (decide current).landing?
    | _, _ => none

/-- The view after a read of a file. -/
def FsView.seen (cap : Nat) (v : FsView) (path : Path) (contents : Option Bytes) : FsView :=
  match shown cap v.around.nowMs v.call path contents with
  | some (current, decision) =>
    { v with
      read := if v.lock = some (lockPath path) then some current else none
      done := decision.answer? }
  | none => { v with done := blobShown v.call path contents }

/-- The view after a request. -/
def FsView.after (cap : Nat) (v : FsView) :
    (req : DiskReq Bytes) → Except IoError req.Answer → FsView
  | .fs (.openFile path), .ok _ => { v with lock := some path }
  | .fs (.read path), .ok bytes => v.seen cap path (some bytes)
  | .fs (.read path), .error .notFound => v.seen cap path none
  | .fs (.writeFile path bytes), .ok _ => { v with temp := some (path, bytes) }
  | .fs (.writeFile _ _), .error _ => { v with temp := none }
  | .fs (.tryExists path), .ok found => { v with done := presenceShown v.call path found }
  | .fs (.rename _ _), .ok _ =>
    { v with read := none, temp := none, done := landing cap v.around.nowMs v.read v.call }
  | .removeFile _, .ok _ | .removeFile _, .error .notFound =>
    { v with read := none, done := landing cap v.around.nowMs v.read v.call }
  | _, _ => v

/-- A file that is the call's alone. -/
def FsView.Owns (v : FsView) (path : Path) : Prop :=
  (∃ key, Apart key ∧ v.lock = some (lockPath (recordPath key)) ∧ path = tmpPath (recordPath key)) ∨
    ∃ hash : ContentHash, hash.Hex ∧
      path = blobTmpPath (blobPath hash) v.around.pid v.around.nonce

/-- What the call has decided to leave at the path. -/
def FsView.Leaves (cap : Nat) (v : FsView) (path : Path) (contents : Option Bytes) : Prop :=
  (∃ content, v.call = .putBlob content ∧ path = blobPath (.of content) ∧
      contents = some content) ∨
    (∃ hash, v.call = .deleteBlob hash ∧ path = blobPath hash ∧ contents = none) ∨
    ∃ key decide current, decides cap v.around.nowMs v.call = some (key, decide) ∧
      v.read = some current ∧ path = recordPath key ∧
        ((∃ stored a bytes, decide current = .write stored a ∧ encode stored = .ok bytes ∧
            contents = some bytes) ∨ ∃ a, decide current = .remove a ∧ contents = none)

/-- What a call may ask for. -/
def FsView.Guard (cap : Nat) (v : FsView) : DiskReq Bytes → Prop
  | .fs (.createDirAll path) => path = blobsDir ∨ ∃ key, Apart key ∧ path = recordDirs key
  | .fs (.openFile path) => v.lock = none ∧ ∃ key, Apart key ∧ path = lockPath (recordPath key)
  | .fs (.read _) | .fs (.tryExists _) => v.done = none
  | .fs (.writeFile path _) => v.Owns path
  | .fs (.rename src dst) =>
    v.done = none ∧ ∃ bytes, v.temp = some (src, bytes) ∧ v.Leaves cap dst (some bytes)
  | .removeFile path => v.done = none ∧ v.Leaves cap path none
  | _ => True

abbrev fsCalls (cap : Nat) : Contract (diskInterface Bytes) FsView where
  guard := FsView.Guard cap
  turn v req answer v' := v' = v.after cap req answer

end Knowing

end Gonzalo.Fs
