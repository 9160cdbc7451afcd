import Gonzalo.Core.Undelete

/-!
# The MCP record tools

The `record_put` and `record_delete` branches of `record_tool` in
`gonzalo-mcp/src/lib.rs`. A tool call parses its arguments, issues one call of the
store and reports the outcome; a bad argument is an answer and issues nothing.
How `serde_json` reads a revision object is outside the repository.
-/

set_option autoImplicit false

namespace Gonzalo.Core

/-- `Value::as_str`. -/
def Json.asStr : Json → Option String
  | .string text => some text
  | _ => none

/-- The kind a variant name stands for. -/
def RecordKind.fromName : String → Option RecordKind
  | "MemoryTier" => some memoryTier
  | "Topic" => some topic
  | "Session" => some session
  | "Checkpoint" => some checkpoint
  | "Ticket" => some ticket
  | "TicketEvent" => some ticketEvent
  | "GraphManifest" => some graphManifest
  | "VectorManifest" => some vectorManifest
  | "Person" => some person
  | "IdentityBinding" => some identityBinding
  | "RoleGrant" => some roleGrant
  | "ChannelConfig" => some channelConfig
  | "LinkToken" => some linkToken
  | "AuditEntry" => some auditEntry
  | "Tombstone" => some tombstone
  | _ => none

end Gonzalo.Core

namespace Gonzalo.Mcp
open Gonzalo.Core Gonzalo.Lib

/-- `serde_json::from_value` at the type of revisions. -/
class RevisionValue where
  fromValue : Json → Except String Revision

/-- The arguments of a tool call. -/
abbrev Arguments : Type := Option JsonFields

/-- `str_arg`. -/
def strArg (arguments : Arguments) (key : String) : Except String String :=
  match (arguments.bind (·.get? key)).bind Json.asStr with
  | some text => .ok text
  | none => .error ("missing required string argument '" ++ key ++ "'")

/-- `record_key_args`. -/
def recordKeyArgs (arguments : Arguments) : Except String RecordKey := do
  let ns ← strArg arguments "namespace"
  let collection ← strArg arguments "collection"
  let id ← strArg arguments "id"
  pure ⟨ns, collection, id⟩

/-- `kind_arg`: a topic unless a kind is named. -/
def kindArg (arguments : Arguments) : Except String RecordKind :=
  match (arguments.bind (·.get? "kind")).bind Json.asStr with
  | none => .ok .topic
  | some raw =>
    match RecordKind.fromName raw with
    | some kind => .ok kind
    | none => .error ("unknown record kind '" ++ raw ++ "'")

/-- `expected_revision_arg`. -/
def expectedRevisionArg [RevisionValue] (arguments : Arguments) :
    Except String (Option Revision) :=
  match arguments.bind (·.get? "expected_revision") with
  | none => .ok none
  | some .null => .ok none
  | some raw =>
    match RevisionValue.fromValue raw with
    | .ok revision => .ok (some revision)
    | .error e => .error ("expected_revision is not a revision: " ++ e)

/-- What a record write tool answers. -/
inductive ToolResult where
  | committed (key : String) (revision : Revision)
  | notCommitted (key reason : String) (current : Record)
  | deleted (key : String)
  | notDeleted (key : String) (current : Record)
  | error (message : String)
  deriving DecidableEq

variable [Blake3]

/-- The record `record_put` writes: a created one, with the expected revision as its
parent when there is one. -/
def putRecord (key : RecordKey) (kind : RecordKind) (body : String) (expected : Option Revision) :
    Record :=
  let created := Record.create key kind (.inline (asBytes body)) (.new (.new "gonzalo-mcp") "mcp")
  match expected with
  | some rev => { created with parent := some rev }
  | none => created

variable [RevisionValue]

/-- The put that `record_put` asks for. -/
def putArgs (arguments : Arguments) : Except String (Record × Option Revision) := do
  let key ← recordKeyArgs arguments
  let body ← strArg arguments "body"
  let kind ← kindArg arguments
  let expected ← expectedRevisionArg arguments
  pure (putRecord key kind body expected, expected)

/-- `record_put`. -/
def recordPut (arguments : Arguments) : BackendProgram ToolResult :=
  match putArgs arguments with
  | .error message => pure (.error message)
  | .ok (record, expected) => do
    match ← callBackend (.store (.put record expected)) with
    | .ok (.committed revision) => pure (.committed record.key.display revision)
    | .ok (.conflict conflict) =>
      pure (.notCommitted record.key.display
        "the key moved on since the revision this write expected" conflict.current)
    | .error e => pure (.error e.display)

omit [Blake3] [RevisionValue] in
/-- `record_delete`. -/
def recordDelete (arguments : Arguments) : BackendProgram ToolResult :=
  match recordKeyArgs arguments with
  | .error message => pure (.error message)
  | .ok key => do
    match ← callBackend (.store (.deleteAs key none none)) with
    | .ok .deleted => pure (.deleted key.display)
    | .ok (.conflict conflict) => pure (.notDeleted key.display conflict.current)
    | .error e => pure (.error e.display)

/-! ## The record a put writes -/

omit [RevisionValue] in
theorem putRecord_ancestors (key : RecordKey) (kind : RecordKind) (body : String)
    (expected : Option Revision) : (putRecord key kind body expected).ancestors = [] := by
  cases expected <;> rfl

theorem putArgs_ok {arguments : Arguments} {record : Record} {expected : Option Revision}
    (parsed : putArgs arguments = .ok (record, expected)) :
    ∃ key kind body, record = putRecord key kind body expected := by
  unfold putArgs at parsed
  cases keyed : recordKeyArgs arguments with
  | error e => simp [keyed, bind, Except.bind] at parsed
  | ok key =>
    cases text : strArg arguments "body" with
    | error e => simp [keyed, text, bind, Except.bind] at parsed
    | ok body =>
      cases named : kindArg arguments with
      | error e => simp [keyed, text, named, bind, Except.bind] at parsed
      | ok kind =>
        cases read : expectedRevisionArg arguments with
        | error e => simp [keyed, text, named, read, bind, Except.bind] at parsed
        | ok rev =>
          simp only [keyed, text, named, read, bind, Except.bind, pure, Except.pure,
            Except.ok.injEq, Prod.mk.injEq] at parsed
          obtain ⟨rfl, rfl⟩ := parsed
          exact ⟨key, kind, body, rfl⟩

end Gonzalo.Mcp
