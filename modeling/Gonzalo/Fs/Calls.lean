import Gonzalo.Core.Backend
import Gonzalo.Fs.Store
import Gonzalo.Lib.Disk

/-!
# The calls of the file-system store

The rest of `gonzalo-store-fs/src/lib.rs`: deletes, purges, the consumer's list and the
blobs, and every call of the store as the program that serves it. What a call takes from
outside is an argument: the clock, and what its process puts into the name of a blob's
temporary file.
-/

set_option autoImplicit false

namespace Gonzalo.Fs
open Gonzalo.Core Gonzalo.Lib

abbrev DiskProgram (α : Type) : Type := Program (diskInterface Bytes) CoreError α

/-- Send one request and look at its error. -/
def request (req : DiskReq Bytes) : DiskProgram (Except IoError req.Answer) :=
  @Program.request (diskInterface Bytes) _ req

/-- A program that removes nothing. -/
def onDisk {α : Type} (p : FsProgram α) : DiskProgram α := p.lift (diskPart Bytes)

/-! ### Removal -/

/-- `remove_durable`. -/
def removeDurable (path : Path) : DiskProgram Unit := do
  match ← request (.removeFile path) with
  | .ok _ | .error .notFound => onDisk (send (.syncDir path.dropLast))
  | .error e => .fail (backendError e)

/-- `delete_blob`. -/
def deleteBlob (hash : ContentHash) : DiskProgram Unit := do
  match ← request (.removeFile (blobPath hash)) with
  | .ok _ | .error .notFound => .done ()
  | .error e => .fail (backendError e)

/-! ### Blobs -/

/-- `has_blob`. -/
def hasBlob (hash : ContentHash) : FsProgram Bool := send (.tryExists (blobPath hash))

/-- `is_blob_hash`. -/
def isBlobHash (name : String) : Bool :=
  name.utf8ByteSize == 64 && name.toList.all fun c => isHexDigit c && !c.isUpper

/-- `blob_entry_from_dir_entry`. -/
def blobEntryFromDirEntry (name : String) (metadata : Except IoError Int) :
    Except CoreError (Option BlobEntry) :=
  if !isBlobHash name then .ok none
  else match metadata with
    | .ok timeNs => .ok (some ⟨⟨name⟩, unixMs timeNs⟩)
    | .error .notFound => .ok none
    | .error e => .error (backendError e)

/-- What one entry of the directory adds to a listing of the blobs. -/
def listEntry (out : List BlobEntry) (entry : String × Bool) : DiskProgram (List BlobEntry) :=
  if !isBlobHash entry.1 then .done out
  else do
    let metadata ← request (.modified (blobsDir.join entry.1))
    let found ← .ofExcept (blobEntryFromDirEntry entry.1 metadata)
    .done (out ++ found.toList)

/-- `list_blobs`. -/
def listBlobs : DiskProgram (List BlobEntry) := do
  match ← request (.fs (.readDir blobsDir)) with
  | .ok entries => entries.foldlM listEntry []
  | .error .notFound => .done []
  | .error e => .fail (backendError e)

/-! ### Records -/

variable [RecordJson Bytes]

/-- `listed_live`. -/
def listedLive (key : RecordKey) : FsProgram Bool := do
  match ← (getRaw key).attempt with
  | .ok (some record) => .done (!record.isTombstone)
  | .ok none => .done false
  | .error _ => .done true

/-- `list`. -/
def list (under : KeyPrefix) : FsProgram (List RecordKey) := do
  let keys ← collectKeys under
  keys.foldlM (fun out key => do
    let live ← listedLive key
    .done (if live then out ++ [key] else out)) []

variable [Blake3]

/-- What a call takes from outside: the clock, the process and its next nonce. -/
structure Around where
  nowMs : Int
  pid : Nat
  nonce : Nat

/-- A call answers what its program comes to. -/
abbrev answering {α : Type} (p : DiskProgram α) :
    Program (diskInterface Bytes) Empty (Except CoreError α) := p.attempt

end Gonzalo.Fs
