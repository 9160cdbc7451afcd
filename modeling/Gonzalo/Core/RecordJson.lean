import Gonzalo.Core.Record

/-!
# Record files

What the substrates use of `serde_json`: a record is written as the contents of a file or
an object and read back from it. Contents are a type of their own.
-/

set_option autoImplicit false

namespace Gonzalo.Core

/-- `serde_json` on records, over file contents of type `β`. -/
class RecordJson (β : Type) where
  toVecPretty : Record → Except String β
  fromSlice : β → Except String Record

variable {β : Type} [RecordJson β]

/-- The record in a file. -/
def decode (contents : β) : Except CoreError Record :=
  (RecordJson.fromSlice contents).mapError .serde

/-- The file of a record. -/
def encode (record : Record) : Except CoreError β :=
  (RecordJson.toVecPretty record).mapError .serde

/-- A record file reads back as the record it was written from. -/
def RoundTrip (β : Type) [RecordJson β] : Prop :=
  ∀ (record : Record) (file : β), encode record = .ok file → decode file = .ok record

/-- Files that are their records, for concrete runs. -/
abbrev recordFiles : RecordJson Record := ⟨.ok, .ok⟩

end Gonzalo.Core
