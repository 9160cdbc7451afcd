import Gonzalo.Server.Auth
import Gonzalo.Server.Service

/-!
# The HTTP transport

The handlers of `gonzalo-server/src/http.rs`. A request is given as its route and its
extracted parameters, path segments percent-decoded and JSON bodies parsed; a request no
handler sees, because no route matches it or its extraction fails, is answered from the
request alone. Every path segment a route captures is non-empty.
-/

set_option autoImplicit false

namespace Gonzalo.Server
open Gonzalo.Core Gonzalo.Lib
open Gonzalo.Tickets (IngestSummary Lowercase)

/-- `BLOB_NS`: the namespace blob requests authorize against. -/
def blobNs : String := "_blobs"

inductive StatusCode where
  | ok | badRequest | unauthorized | forbidden | notFound | conflict | preconditionFailed
  | payloadTooLarge | unprocessableEntity | internalServerError | serviceUnavailable
  deriving DecidableEq, Repr

/-- `Display` of a status code. -/
def StatusCode.display : StatusCode → String
  | ok => "200 OK"
  | badRequest => "400 Bad Request"
  | unauthorized => "401 Unauthorized"
  | forbidden => "403 Forbidden"
  | notFound => "404 Not Found"
  | conflict => "409 Conflict"
  | preconditionFailed => "412 Precondition Failed"
  | payloadTooLarge => "413 Payload Too Large"
  | unprocessableEntity => "422 Unprocessable Entity"
  | internalServerError => "500 Internal Server Error"
  | serviceUnavailable => "503 Service Unavailable"

/-- The body of a response: text, bytes, or the JSON of a value. -/
inductive Payload [CodeGraph] where
  | text (message : String)
  | blob (content : Bytes)
  | record (record : Record)
  | rawRecord (record : Option Record)
  | put (outcome : PutResult)
  | delete (outcome : DeleteResult)
  | keys (keys : List RecordKey)
  | blobs (entries : List BlobEntry)
  | summary (summary : IngestSummary)
  | answer (answer : CodeGraph.Answer)

structure HttpResponse [CodeGraph] where
  status : StatusCode
  payload : Payload

/-- `PutBody`. -/
structure PutBody where
  record : Record
  expected : Option Revision

/-- `DeleteBody`. -/
structure DeleteBody where
  expected : Option Revision
  author : Option Identity

/-- The requests the router knows, and those it or an extractor refuses. -/
inductive HttpRequest [CodeGraph] where
  | healthz
  | readyz
  | getRecord (path : RecordKey)
  | putRecord (path : RecordKey) (body : PutBody)
  | deleteRecord (path : RecordKey) (body : Option DeleteBody)
  | listKeys (q : KeyPrefix)
  | getRawRecord (path : RecordKey)
  | putRawRecord (path : RecordKey) (body : PutBody)
  | listRawKeys (q : KeyPrefix)
  | purgeRecord (path : RecordKey) (body : Except String Revision)
  | ticketSync (conn : Connection)
  | graph (kind : GraphKind) (q : GraphQuery)
  | getBlob (hash : String)
  | headBlob (hash : String)
  | putBlob (hash : String) (body : Bytes)
  | deleteBlob (hash : String)
  | listBlobs
  | refused (response : HttpResponse)

/-- The length of the body a request carries, and what axum says of one that is too long. -/
class HttpBodies [CodeGraph] where
  len : HttpRequest → Nat
  tooLarge : HttpRequest → String

/-- What a daemon is started with. -/
structure Daemon [CodeGraph] where
  auth : Auth
  graphs : PersistentGraphs
  maxBlobSize : Nat

namespace Http

variable [CodeGraph] {ε : Type}

/-- A response with a plain-text body. -/
def textResponse (status : StatusCode) (message : String) : HttpResponse :=
  ⟨status, .text message⟩

section Refusals

variable [DebugFmt]

/-- `forbidden`. -/
def forbidden (principal : Principal) (access : Access) (ns : String) : HttpResponse :=
  textResponse .forbidden <| "principal " ++ DebugFmt.debug principal.name ++ " lacks " ++
    access.debug ++ " on namespace " ++ DebugFmt.debug ns

/-- `forbidden_admin`. -/
def forbiddenAdmin (principal : Principal) (operation : String) : HttpResponse :=
  textResponse .forbidden <| "principal " ++ DebugFmt.debug principal.name ++
    " is not an admin; " ++ operation ++ " requires admin"

end Refusals

/-- `server_error`: the error is logged, the client sees an opaque text. -/
def serverError : HttpResponse := textResponse .internalServerError "internal error"

/-- `path_key_mismatch`. -/
def pathKeyMismatch (path key : RecordKey) : Option HttpResponse :=
  if path.ns ≠ key.ns ∨ path.collection ≠ key.collection ∨ path.id ≠ key.id then
    some (textResponse .badRequest "URL path does not match record key")
  else none

/-- `put_outcome_response`. -/
def putOutcomeResponse : Except CoreError PutResult → HttpResponse
  | .ok (.committed revision) => ⟨.ok, .put (.committed revision)⟩
  | .ok (.conflict conflict) => ⟨.conflict, .put (.conflict conflict)⟩
  | .error (.notFound key) =>
    textResponse .preconditionFailed ("record not found: " ++ key.display)
  | .error (.invalid reason) => textResponse .badRequest reason
  | .error _ => serverError

/-- `delete_outcome_response`. -/
def deleteOutcomeResponse : Except CoreError DeleteResult → HttpResponse
  | .ok .deleted => ⟨.ok, .delete .deleted⟩
  | .ok (.conflict conflict) => ⟨.conflict, .delete (.conflict conflict)⟩
  | .error (.invalid reason) => textResponse .badRequest reason
  | .error _ => serverError

/-- Run a call of the service and answer from how it ended. -/
def answering {α : Type} (call : BackendProgram α) (respond : Except CoreError α → HttpResponse) :
    ServiceProgram ε HttpResponse := do
  return respond (← call.attempt)

/-- An answer that is an opaque error unless the call succeeds. -/
def orServerError {α : Type} (respond : α → HttpResponse) : Except CoreError α → HttpResponse
  | .ok value => respond value
  | .error _ => serverError

/-- `list_prefix`: a listing over all namespaces needs read access to `"*"`. -/
def listNs (q : KeyPrefix) : String := q.ns.getD "*"

/-- `bearer` and the authentication layer. -/
def authenticated (daemon : Daemon) (token : Option String)
    (handler : Principal → ServiceProgram ε HttpResponse) :
    ServiceProgram ε HttpResponse :=
  match daemon.auth.authenticate token with
  | some principal => handler principal
  | none => return textResponse .unauthorized ""

variable [Blake3] [DebugFmt] [Serde]

/-- Authorize `access` on `ns`, then go on. -/
def authorized (principal : Principal) (access : Access) (ns : String)
    (handler : ServiceProgram ε HttpResponse) :
    ServiceProgram ε HttpResponse :=
  if !principal.allows access ns then return forbidden principal access ns else handler

/-- `get_record`. -/
def getRecord (principal : Principal) (path : RecordKey) : ServiceProgram ε HttpResponse :=
  authorized principal .read path.ns <| answering (Service.get path) <|
    orServerError fun
      | some record => ⟨.ok, .record record⟩
      | none => textResponse .notFound ""

/-- The record with its author stamped from the principal, if there is one. -/
def stamped (principal : Principal) (record : Record) : Record :=
  if principal.authenticated then
    { record with metadata := { record.metadata with author := .new principal.name } }
  else record

/-- `put_record`. -/
def putRecord (principal : Principal) (path : RecordKey) (body : PutBody) :
    ServiceProgram ε HttpResponse :=
  match pathKeyMismatch path body.record.key with
  | some bad => return bad
  | none => authorized principal .write body.record.key.ns <|
      answering (Service.put (stamped principal body.record) body.expected) putOutcomeResponse

/-- `delete_record`. -/
def deleteRecord (principal : Principal) (path : RecordKey) (body : Option DeleteBody) :
    ServiceProgram ε HttpResponse :=
  authorized principal .write path.ns <|
    answering (Service.deleteAs path (body.bind (·.expected))
      (principal.deleteAuthor (body.bind (·.author)))) deleteOutcomeResponse

/-- `list_keys`. -/
def listKeys (principal : Principal) (q : KeyPrefix) : ServiceProgram ε HttpResponse :=
  authorized principal .read (listNs q) <| answering (Service.list q) <|
    orServerError fun keys => ⟨.ok, .keys keys⟩

/-- `get_raw_record`. -/
def getRawRecord (principal : Principal) (path : RecordKey) : ServiceProgram ε HttpResponse :=
  authorized principal .read path.ns <| answering (callGetRaw path) <|
    orServerError fun record => ⟨.ok, .rawRecord record⟩

/-- `put_raw_record`. -/
def putRawRecord (principal : Principal) (path : RecordKey) (body : PutBody) :
    ServiceProgram ε HttpResponse :=
  if !principal.isAdmin then return forbiddenAdmin principal "a raw record write"
  else match pathKeyMismatch path body.record.key with
    | some bad => return bad
    | none => answering (callPutRaw body.record body.expected) putOutcomeResponse

/-- `list_raw_keys`. -/
def listRawKeys (principal : Principal) (q : KeyPrefix) : ServiceProgram ε HttpResponse :=
  authorized principal .read (listNs q) <| answering (Service.listRaw q) <|
    orServerError fun keys => ⟨.ok, .keys keys⟩

/-- `purge_record`. -/
def purgeRecord (principal : Principal) (path : RecordKey) (body : Except String Revision) :
    ServiceProgram ε HttpResponse :=
  if !principal.isAdmin then return forbiddenAdmin principal "purge"
  else match body with
    | .error e => return textResponse .badRequest ("invalid purge body: " ++ e)
    | .ok expected => answering (Service.purge path expected) deleteOutcomeResponse

/-- `ticket_sync`. -/
def ticketSync [Lowercase] (principal : Principal) (conn : Connection) :
    ServiceProgram ε HttpResponse :=
  authorized principal .write "tickets" do
    match ← (Service.ticketSync conn "gonzalod").attempt with
    | .ok summary => return ⟨.ok, .summary summary⟩
    | .error (.badRequest m) => return textResponse .badRequest m
    | .error (.internal _) => return serverError

/-- `graph_definitions`, `graph_references_to`, `graph_callers_of`, `graph_callees` and
`graph_impact`. -/
def graph (graphs : PersistentGraphs) (principal : Principal) (kind : GraphKind)
    (q : GraphQuery) : ServiceProgram ε HttpResponse :=
  authorized principal .read q.repo <| answering (Service.graph graphs kind q) <|
    orServerError fun answer => ⟨.ok, .answer answer⟩

/-- `get_blob`. -/
def getBlob (principal : Principal) (hash : String) : ServiceProgram ε HttpResponse :=
  authorized principal .read blobNs <| answering (Service.getBlob ⟨hash⟩) <|
    orServerError fun
      | some bytes => ⟨.ok, .blob bytes⟩
      | none => textResponse .notFound ""

/-- `head_blob`. -/
def headBlob (principal : Principal) (hash : String) : ServiceProgram ε HttpResponse :=
  authorized principal .read blobNs <| answering (callHasBlob ⟨hash⟩) <|
    orServerError fun
      | true => textResponse .ok ""
      | false => textResponse .notFound ""

/-- `put_blob`. -/
def putBlob (principal : Principal) (hash : String) (body : Bytes) :
    ServiceProgram ε HttpResponse :=
  authorized principal .write blobNs <|
    if (ContentHash.of body).text ≠ hash then
      return textResponse .badRequest "blob content does not match the URL hash"
    else answering (Service.putBlob body) <| orServerError fun _ => textResponse .ok ""

/-- `delete_blob`. -/
def deleteBlob (principal : Principal) (hash : String) : ServiceProgram ε HttpResponse :=
  authorized principal .write blobNs <| answering (callDeleteBlob ⟨hash⟩) <|
    orServerError fun _ => textResponse .ok ""

/-- `list_blobs`. -/
def listBlobs (principal : Principal) : ServiceProgram ε HttpResponse :=
  authorized principal .read blobNs <| answering callListBlobs <|
    orServerError fun entries => ⟨.ok, .blobs entries⟩

/-- The handler of a route. -/
def route [Lowercase] (daemon : Daemon) (principal : Principal) :
    HttpRequest → ServiceProgram ε HttpResponse
  | .healthz => return textResponse .ok "ok"
  | .readyz => do
    if ← Service.ready then return textResponse .ok "ready"
    else return textResponse .serviceUnavailable "not ready"
  | .getRecord path => getRecord principal path
  | .putRecord path body => putRecord principal path body
  | .deleteRecord path body => deleteRecord principal path body
  | .listKeys q => listKeys principal q
  | .getRawRecord path => getRawRecord principal path
  | .putRawRecord path body => putRawRecord principal path body
  | .listRawKeys q => listRawKeys principal q
  | .purgeRecord path body => purgeRecord principal path body
  | .ticketSync conn => ticketSync principal conn
  | .graph kind q => graph daemon.graphs principal kind q
  | .getBlob hash => getBlob principal hash
  | .headBlob hash => headBlob principal hash
  | .putBlob hash body => putBlob principal hash body
  | .deleteBlob hash => deleteBlob principal hash
  | .listBlobs => listBlobs principal
  | .refused response => return response

/-- `is_probe_path`: served without authentication. -/
def isProbe : HttpRequest → Bool
  | .healthz | .readyz => true
  | _ => false

/-- `DefaultBodyLimit`, where a handler reads the body: the configured ceiling on the blob
routes, axum's on the others. -/
def bodyLimit (daemon : Daemon) : HttpRequest → Option Nat
  | .putBlob _ _ => some daemon.maxBlobSize
  | .putRecord _ _ | .deleteRecord _ _ | .putRawRecord _ _ | .purgeRecord _ _ | .ticketSync _ =>
    some 2097152
  | _ => none

/-- `router`: what the daemon does with a request that carries `token`. -/
def handle [Lowercase] [HttpBodies] (daemon : Daemon) (token : Option String) (req : HttpRequest) :
    ServiceProgram ε HttpResponse :=
  if isProbe req then route daemon .open req
  else authenticated daemon token fun principal =>
    if (bodyLimit daemon req).any (· < HttpBodies.len req) then
      return textResponse .payloadTooLarge (HttpBodies.tooLarge req)
    else route daemon principal req

end Http

end Gonzalo.Server
