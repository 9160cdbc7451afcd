import Gonzalo.Server.Grpc
import Gonzalo.Server.Veil

/-!
# Two runs a principal cannot tell apart

What the requests of one principal can tell it, over both transports. A request without a
token, or with one that nobody was given, comes from a principal that may neither read nor
write.
-/

set_option autoImplicit false

namespace Gonzalo.Server
open Gonzalo.Core Gonzalo.Lib
open Gonzalo.Tickets (Cursor IngestError IngestProgram IngestSummary Lowercase
  Page SourceError Ticket callGet callPut conflictText
  ingestPages ingestTicket recordKey upsert)

/-! ## A daemon at work -/

/-- A backend, and how many calls it has answered. -/
structure Serving where
  backend : Backend
  calls : Nat

/-- A call is answered at the time that the clock shows then. -/
def Serving.answer [Blake3] (clock : Nat → Int) (s : Serving) (req : BackendReq) :
    Serving × req.Ans :=
  (⟨(s.backend.reply (clock s.calls) req).1, s.calls + 1⟩,
    (s.backend.reply (clock s.calls) req).2)

section Serve
variable [CodeGraph]

/-- A request over either transport. -/
inductive Request where
  | http (req : HttpRequest)
  | grpc (req : GrpcRequest)

inductive Response where
  | http (response : HttpResponse)
  | grpc (result : Except Status GrpcReply)

namespace Daemon

/-- Whether the holder of the token has the access. -/
def allows (daemon : Daemon) (token : Option String) (access : Access) (ns : String) : Bool :=
  (daemon.auth.authenticate token).any (·.allows access ns)

/-- Whether the holder of the token has any access. -/
def knows (daemon : Daemon) (token : Option String) (ns : String) : Bool :=
  daemon.allows token .read ns || daemon.allows token .write ns

variable [Blake3] [Lowercase] [DebugFmt] [Serde] [HttpBodies] [GrpcMessages]

def respond (daemon : Daemon) (token : Option String) : Request → ServiceProgram Empty Response
  | .http req => do return .http (← Http.handle daemon token req)
  | .grpc req => do return .grpc (← (Grpc.handle daemon token req).attempt)

/-- The requests of one principal, one after another. -/
def serve (daemon : Daemon) (token : Option String) :
    List Request → ServiceProgram Empty (List Response)
  | [] => return []
  | req :: rest => do
    let response ← daemon.respond token req
    let later ← serve daemon token rest
    return response :: later

end Daemon

/-! ## Responses under the veil -/

/-- The payload with the current record of a conflict under the veil. -/
def Payload.veil (reads : String → Bool) : Payload → Payload
  | .put outcome => .put (outcome.veil reads)
  | .delete outcome => .delete (outcome.veil reads)
  | other => other

def HttpResponse.veil (reads : String → Bool) (self : HttpResponse) : HttpResponse :=
  { self with payload := self.payload.veil reads }

def GrpcReply.veil (reads : String → Bool) : GrpcReply → GrpcReply
  | .put outcome => .put (outcome.veil reads)
  | .delete outcome => .delete (outcome.veil reads)
  | other => other

def Response.veil (reads : String → Bool) : Response → Response
  | .http response => .http (response.veil reads)
  | .grpc result => .grpc (result.map (GrpcReply.veil reads))

end Serve

/-! ## Calls in two runs -/

section Calls
variable [Blake3] {clock : Nat → Int} {knows reads : String → Bool}

section Tickets

/-- The errors differ in the content of a conflict's record at most. -/
def SameIngestError : IngestError → IngestError → Prop
  | .conflict c, .conflict c' =>
    c.key = c'.key ∧ c.expected = c'.expected ∧ c.current.revision = c'.current.revision
  | e, e' => e = e'

omit [Blake3] in
theorem SameIngestError.display [DebugFmt] {e e' : IngestError} (same : SameIngestError e e') :
    e.display = e'.display := by
  cases e with
  | conflict c =>
    cases e' with
    | conflict c' =>
      obtain ⟨key, expected, revision⟩ := same
      change conflictText c.key c.expected c.current.revision =
        conflictText c'.key c'.expected c'.current.revision
      rw [key, expected, revision]
    | _ => cases same
  | _ =>
    cases e' with
    | conflict c' => cases same
    | _ => exact congrArg IngestError.display same

omit [Blake3] in
theorem lift_callGet (key : RecordKey) :
    (callGet key).lift storePart = (Service.get key).mapError .store :=
  congrArg (Program.ask _) (funext fun answer => by cases answer <;> rfl)

omit [Blake3] in
theorem lift_callPut (record : Record) (expected : Option Revision) :
    (callPut record expected).lift storePart = (Service.put record expected).mapError .store :=
  congrArg (Program.ask _) (funext fun answer => by cases answer <;> rfl)

variable [Lowercase]

end Tickets

section Graphs
variable [Serde] [CodeGraph]

end Graphs

/-- What a principal may read is read, and what it has any access to is known. -/
structure Informs (knows reads : String → Bool) (p : Principal) : Prop where
  knows : ∀ {access : Access} {ns : String}, p.allows access ns = true → knows ns = true
  reads : ∀ {ns : String}, p.allows .read ns = true → reads ns = true

omit [Blake3] in
/-- A principal that may list a prefix knows the namespaces of its keys. -/
theorem Informs.listed {p : Principal} (informs : Informs knows reads p) {q : KeyPrefix}
    (allowed : p.allows .read (Http.listNs q) = true) (key : RecordKey)
    (listed : q.matches key = true) : knows key.ns = true := by
  obtain ⟨ns, collection⟩ := q
  cases ns with
  | none => exact informs.knows (Principal.allows_of_wildcard allowed key.ns)
  | some ns =>
    have own : ns = key.ns := by simpa using (Bool.and_eq_true_iff.mp listed).1
    exact informs.knows (own ▸ allowed)

section Http
variable [CodeGraph] {ε : Type} {E : ε → ε → Prop}

variable [DebugFmt]

omit [CodeGraph] [Blake3] [DebugFmt] in
@[simp] theorem stamped_key (principal : Principal) (record : Record) :
    (Http.stamped principal record).key = record.key := by
  unfold Http.stamped
  split <;> rfl

/-! ### The handlers -/

section Handlers
variable {principal : Principal} (informs : Informs knows reads principal)
include informs

end Handlers

end Http

/-! ## gRPC -/

section Grpc

variable [DebugFmt]

variable [CodeGraph]

section Methods
variable {auth : Auth} {token : Option String}
  (informs : ∀ p, auth.authenticate token = some p → Informs knows reads p)
include informs

end Methods

end Grpc

/-! ## A sequence of requests -/

section Runs
variable [CodeGraph]

omit [Blake3] in
/-- A token gives its holder what the principal is granted. -/
theorem granted_of_authenticate {daemon : Daemon} {token : Option String} {p : Principal}
    (found : daemon.auth.authenticate token = some p) (access : Access) (ns : String) :
    daemon.allows token access ns = p.allows access ns := by
  simp [Daemon.allows, found]

variable [Lowercase] [DebugFmt] [Serde] [HttpBodies] [GrpcMessages]

end Runs

end Calls

end Gonzalo.Server
