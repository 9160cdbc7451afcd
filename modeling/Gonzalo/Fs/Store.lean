import Gonzalo.Core.MemStore
import Gonzalo.Core.RecordJson
import Gonzalo.Fs.Layout

/-!
# The file-system store

The writes and reads of `gonzalo-store-fs/src/lib.rs`, request by request. A put reads,
decides and writes under the lock of its record, so nobody is in between.
-/

set_option autoImplicit false

namespace Gonzalo.Fs
open Gonzalo.Core Gonzalo.Lib

abbrev FsProgram (α : Type) : Type := Program (fsInterface Bytes) CoreError α

/-- How an I/O error is shown. -/
def ioText : IoError → String
  | .notFound => "No such file or directory (os error 2)"
  | .other text => text

/-- The error of the store that an I/O error becomes. -/
def backendError (e : IoError) : CoreError := .backend (ioText e)

/-- Send one request and look at its error. -/
def attempt (req : FsReq Bytes) : FsProgram (Except IoError req.Answer) :=
  @Program.request (fsInterface Bytes) _ req

/-- Send one request and propagate its error. -/
def send (req : FsReq Bytes) : FsProgram req.Answer :=
  attempt req >>= fun answer => .ofExcept (answer.mapError backendError)

/-! ### Records -/

/-- The lock file of a record file. -/
def lockPath (path : Path) : Path := path.withExtension "json.lock"

/-- The file a record is written to before it is published. -/
def tmpPath (path : Path) : Path := path.withExtension "json.tmp"

/-- `lock_record`. -/
def lockRecord (path : Path) : FsProgram Unit := do
  send (.createDirAll path.dropLast)
  send (.openFile (lockPath path))

variable [RecordJson Bytes]

/-- `read_current`, and `read_record` at the path of a key. -/
def readCurrent (path : Path) : FsProgram (Option Record) := do
  match ← attempt (.read path) with
  | .ok bytes => .ofExcept ((decode bytes).map some)
  | .error .notFound => .done none
  | .error e => .fail (backendError e)

/-- `write_durable`. -/
def writeDurable (path : Path) (record : Record) : FsProgram Unit := do
  let bytes ← .ofExcept (encode record)
  send (.writeFile (tmpPath path) bytes)
  send (.rename (tmpPath path) path)
  send (.syncDir path.dropLast)

/-- `put_locked`. -/
def putLocked (record : Record) (expected : Option Revision) (plan : MemStore.PutPlanner)
    (nowMs : Int) (cap : Nat) : FsProgram PutResult := do
  let path := recordPath record.key
  lockRecord path
  let current ← readCurrent path
  match plan current record expected nowMs cap with
  | .write stored => do
    writeDurable path stored
    .done (.committed stored.revision)
  | .conflict conflict => .done (.conflict conflict)
  | .notFound => .fail (.notFound record.key)
  | .rejected reason => .fail (.invalid reason)

/-- `get_raw`. -/
def getRaw (key : RecordKey) : FsProgram (Option Record) := readCurrent (recordPath key)

/-- `get`. -/
def get (key : RecordKey) : FsProgram (Option Record) := do
  let record ← getRaw key
  .done (record.filter fun record => !record.isTombstone)

/-! ### Listing -/

/-- The key of a file that the walk finds, if the file is a record's and the key is asked for. -/
def listedKey (under : KeyPrefix) (ns coll file : String) : Option RecordKey :=
  match stripSuffix file ".json" with
  | none => none
  | some id =>
    let key : RecordKey := ⟨decodeSegment ns, decodeSegment coll, decodeSegment id⟩
    if under.matches key then some key else none

/-- The files of one collection. -/
def collectFiles (under : KeyPrefix) (ns coll : String) (out : List RecordKey) :
    FsProgram (List RecordKey) := do
  let files ← send (.readDir [ns, coll])
  .done (out ++ files.filterMap fun file => listedKey under ns coll file.1)

/-- The collections of one namespace. -/
def collectNamespace (under : KeyPrefix) (ns : String) (out : List RecordKey) :
    FsProgram (List RecordKey) := do
  let cols ← send (.readDir [ns])
  cols.foldlM (fun out col => if col.2 then collectFiles under ns col.1 out else .done out) out

/-- `collect_keys`. -/
def collectKeys (under : KeyPrefix) : FsProgram (List RecordKey) := do
  match ← attempt (.readDir []) with
  | .ok namespaces =>
    namespaces.foldlM
      (fun out ns => if ns.2 then collectNamespace under ns.1 out else .done out) []
  | .error .notFound => .done []
  | .error e => .fail (backendError e)

/-- `list_raw`. -/
def listRaw (under : KeyPrefix) : FsProgram (List RecordKey) := collectKeys under

/-! ### Blobs -/

variable [Blake3]

/-- The file a blob is written to before it is published, by process and nonce. -/
def blobTmpPath (path : Path) (pid nonce : Nat) : Path :=
  path.withExtension ("tmp." ++ toString pid ++ "." ++ toString nonce)

/-- `put_blob`. -/
def putBlob (content : Bytes) (pid nonce : Nat) : FsProgram ContentHash := do
  let hash := ContentHash.of content
  let path := blobPath hash
  let stored ← send (.tryExists path)
  if stored then .done hash
  else do
    send (.createDirAll path.dropLast)
    let tmp := blobTmpPath path pid nonce
    send (.writeFile tmp content)
    send (.rename tmp path)
    send (.syncDir path.dropLast)
    .done hash

/-- `get_blob`. -/
def getBlob (hash : ContentHash) : FsProgram (Option Bytes) := do
  match ← attempt (.read (blobPath hash)) with
  | .ok bytes => .done (some bytes)
  | .error .notFound => .done none
  | .error e => .fail (backendError e)

end Gonzalo.Fs
