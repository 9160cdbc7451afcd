import Gonzalo.Core.Revision

/-!
# The persisted record

`gonzalo-core/src/record.rs`: kinds and their merge classes, bodies, metadata and
the two builders clients use, `Record::create` and `Record::update`. Times are
milliseconds since the epoch. `BTreeMap` is the extensional tree map of `Std`.
-/

set_option autoImplicit false

namespace Gonzalo.Core

/-- What a record represents. Drives the merge strategy. -/
inductive RecordKind where
  | memoryTier | topic | session | checkpoint | ticket | ticketEvent
  | graphManifest | vectorManifest
  | person | identityBinding | roleGrant | channelConfig | linkToken | auditEntry
  | tombstone
  deriving DecidableEq, Repr

/-- How concurrent edits to a record of a given kind are reconciled. -/
inductive MergeClass where
  | appendOnly | structured | opaqueBody | derived
  deriving DecidableEq, Repr

/-- `RecordKind::merge_class`. -/
def RecordKind.mergeClass : RecordKind → MergeClass
  | topic | session | ticketEvent => .appendOnly
  | memoryTier | ticket | person | identityBinding | roleGrant | channelConfig => .structured
  | checkpoint => .opaqueBody
  | linkToken | auditEntry => .opaqueBody
  | graphManifest => .derived
  | vectorManifest => .opaqueBody
  | tombstone => .opaqueBody

/-- The kinds whose body a tombstone retains (ADR 0029). -/
def RecordKind.isManifest : RecordKind → Bool
  | graphManifest | vectorManifest => true
  | _ => false

/-- A record body: bytes held in the record, or a reference to a blob. -/
inductive Body where
  | inline (bytes : Bytes)
  | blob (hash : ContentHash) (len : UInt64)
  deriving DecidableEq, Repr

/-- `Body::bytes`: for a blob, the bytes of the reference's hash text. -/
def Body.bytes : Body → Bytes
  | inline bytes => bytes
  | blob hash _ => asBytes hash.text

@[simp] theorem Body.bytes_inline (bytes : Bytes) : (Body.inline bytes).bytes = bytes := rfl

/-- Provenance and labels. `created` and `updated` are stamped by the store. -/
structure Meta where
  author : Identity
  originSystem : String
  created : Int
  updated : Int
  labels : Std.ExtTreeMap String String compare
  deriving DecidableEq

/-- `Meta::new`. -/
def Meta.new (author : Identity) (originSystem : String) : Meta :=
  { author, originSystem, created := 0, updated := 0, labels := ∅ }

/-- The universal persisted unit. -/
structure Record where
  key : RecordKey
  kind : RecordKind
  revision : Revision
  parent : Option Revision
  body : Body
  metadata : Meta
  links : List RecordKey
  ancestors : List Revision
  deletedAt : Option Int
  deletedBlob : Option ContentHash
  deletedKind : Option RecordKind
  deriving DecidableEq

namespace Record

/-- `Record::is_tombstone`. -/
def isTombstone (self : Record) : Bool := self.kind = .tombstone

/-- `Record::create`. -/
def create [Blake3] (key : RecordKey) (kind : RecordKind) (body : Body) (metadata : Meta) :
    Record where
  key := key
  kind := kind
  revision := .initial body.bytes
  parent := none
  body := body
  metadata := metadata
  links := []
  ancestors := []
  deletedAt := none
  deletedBlob := none
  deletedKind := none

/-- `Record::update`. -/
def update [Blake3] (self : Record) (body : Body) (metadata : Meta) : Record where
  key := self.key
  kind := self.kind
  revision := self.revision.next body.bytes
  parent := some self.revision
  body := body
  metadata := metadata
  links := self.links
  ancestors := []
  deletedAt := none
  deletedBlob := none
  deletedKind := none

end Record

/-- A topic at `key` with revision `counter` over `text`. -/
def topicAt [Blake3] (key : RecordKey) (counter : UInt64) (text : String) : Record :=
  { Record.create key .topic (.inline (asBytes text)) (.new (.new "ada") "example") with
    revision := ⟨counter, .of (asBytes text)⟩ }

def rustKey : RecordKey := ⟨"caliban", "topics", "rust"⟩

end Gonzalo.Core
