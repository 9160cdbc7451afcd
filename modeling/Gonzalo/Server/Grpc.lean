import Gonzalo.Server.Http

/-!
# The gRPC transport

The RPCs of `gonzalo-server/src/grpc.rs`. Protobuf fields are given as values, and a JSON
field as what `serde_json` reads in it, since a handler authenticates before it parses.
-/

set_option autoImplicit false

namespace Gonzalo.Server
open Gonzalo.Core Gonzalo.Lib
open Gonzalo.Tickets (IngestSummary Lowercase)

inductive GrpcRequest where
  | get (key : RecordKey)
  | put (record : Except String Record) (expected : Except String (Option Revision))
  | delete (key : RecordKey) (expected : Except String (Option Revision))
      (author : Except String (Option Identity))
  | list (q : KeyPrefix)
  | getRaw (key : RecordKey)
  | listRaw (q : KeyPrefix)
  | putRaw (record : Except String Record) (expected : Except String (Option Revision))
  | purge (key : RecordKey) (expected : Except String Revision)
  | ticketSync (conn : Except String Connection)
  | graph (kind : GraphKind) (q : GraphQuery)
  | putBlob (hash : String) (content : Bytes)
  | getBlob (hash : String)
  | hasBlob (hash : String)
  | listBlobs
  | deleteBlob (hash : String)

inductive Code where
  | invalidArgument | failedPrecondition | outOfRange | permissionDenied | unauthenticated
  | unimplemented | internal
  deriving DecidableEq, Repr

/-- `tonic::Status`. -/
structure Status where
  code : Code
  message : String
  deriving DecidableEq, Repr

/-- The reply of an RPC that succeeds. -/
inductive GrpcReply [CodeGraph] where
  | get (record : Option Record)
  | put (outcome : PutResult)
  | delete (outcome : DeleteResult)
  | keys (keys : List RecordKey)
  | summary (summary : IngestSummary)
  | answer (answer : CodeGraph.Answer)
  | putBlob (hash : ContentHash)
  | getBlob (content : Option Bytes)
  | hasBlob (found : Bool)
  | listBlobs (entries : List BlobEntry)
  | deleteBlob

/-- The size of an encoded request, and what tonic says of one that is too long. -/
class GrpcMessages where
  len : GrpcRequest → Nat
  tooLong : GrpcRequest → String

namespace Grpc

/-- An RPC: it ends with a reply or with a status. -/
abbrev Rpc (α : Type) : Type := ServiceProgram Status α

/-- `internal`: the error is logged, the client sees an opaque text. -/
def internal : Status := ⟨.internal, "internal error"⟩

/-- `put_error`. -/
def putError : CoreError → Status
  | .notFound key => ⟨.failedPrecondition, "record not found: " ++ key.display⟩
  | .invalid reason => ⟨.invalidArgument, reason⟩
  | _ => internal

/-- `purge_error`. -/
def purgeError : CoreError → Status
  | .invalid reason => ⟨.invalidArgument, reason⟩
  | _ => internal

/-- A call of the service, its failure turned into a status. -/
def calling {α : Type} (call : BackendProgram α) (status : CoreError → Status) : Rpc α :=
  call.mapError status

/-- What a JSON field holds; one that does not parse is the caller's error. -/
def parsed {α : Type} (field : Except String α) : Rpc α :=
  .ofExcept (field.mapError fun e => ⟨.invalidArgument, e⟩)

/-- `authenticate`. -/
def authenticate (auth : Auth) (token : Option String) : Rpc Principal :=
  match auth.authenticate token with
  | some principal => return principal
  | none => .fail ⟨.unauthenticated, "invalid or missing token"⟩

variable [DebugFmt]

/-- `check_access`. -/
def checkAccess (principal : Principal) (access : Access) (ns : String) : Rpc Unit :=
  if principal.allows access ns then return ()
  else .fail ⟨.permissionDenied, "principal " ++ DebugFmt.debug principal.name ++ " lacks " ++
    access.debug ++ " on namespace " ++ DebugFmt.debug ns⟩

/-- `authorize`. -/
def authorize (auth : Auth) (token : Option String) (access : Access) (ns : String) :
    Rpc Principal := do
  let principal ← authenticate auth token
  checkAccess principal access ns
  return principal

/-- `authorize_admin`. -/
def authorizeAdmin (auth : Auth) (token : Option String) (operation : String) :
    Rpc Principal := do
  let principal ← authenticate auth token
  if principal.isAdmin then return principal
  else .fail ⟨.permissionDenied, "principal " ++ DebugFmt.debug principal.name ++
    " is not an admin; " ++ operation ++ " requires admin"⟩

variable [CodeGraph] [Blake3]

/-- `put`, with `authorize_put`. -/
def put (auth : Auth) (token : Option String) (record : Except String Record)
    (expected : Except String (Option Revision)) : Rpc GrpcReply := do
  let principal ← authenticate auth token
  let record ← parsed record
  let expected ← parsed expected
  checkAccess principal .write record.key.ns
  return .put (← calling (Service.put (Http.stamped principal record) expected) putError)

/-- `delete`. -/
def delete (auth : Auth) (token : Option String) (key : RecordKey)
    (expected : Except String (Option Revision)) (author : Except String (Option Identity)) :
    Rpc GrpcReply := do
  let principal ← authenticate auth token
  let expected ← parsed expected
  let claimed ← parsed author
  checkAccess principal .write key.ns
  return .delete (← calling (Service.deleteAs key expected (principal.deleteAuthor claimed))
    fun _ => internal)

/-- `put_raw`. -/
def putRaw (auth : Auth) (token : Option String) (record : Except String Record)
    (expected : Except String (Option Revision)) : Rpc GrpcReply := do
  let _ ← authorizeAdmin auth token "a raw record write"
  let record ← parsed record
  let expected ← parsed expected
  return .put (← calling (callPutRaw record expected) putError)

/-- `purge`. -/
def purge (auth : Auth) (token : Option String) (key : RecordKey)
    (expected : Except String Revision) : Rpc GrpcReply := do
  let _ ← authorizeAdmin auth token "purge"
  let expected ← parsed expected
  return .delete (← calling (Service.purge key expected) purgeError)

/-- `ticket_sync`. -/
def ticketSync [Lowercase] (auth : Auth) (token : Option String) (conn : Except String Connection) :
    Rpc GrpcReply := do
  let _ ← authorize auth token .write "tickets"
  let conn ← parsed conn
  return .summary (← (Service.ticketSync conn "gonzalod").mapError fun
    | .badRequest m => ⟨.invalidArgument, m⟩
    | .internal _ => internal)

/-- `put_blob`. -/
def putBlob (auth : Auth) (token : Option String) (hash : String) (content : Bytes) :
    Rpc GrpcReply := do
  let _ ← authorize auth token .write blobNs
  if (ContentHash.of content).text ≠ hash then
    .fail ⟨.invalidArgument, "blob content does not match the advertised hash"⟩
  else return .putBlob (← calling (Service.putBlob content) fun _ => internal)

/-- A call that only needs `access` on `ns`; every failure of it is an internal error. -/
def granted {α : Type} (auth : Auth) (token : Option String) (access : Access) (ns : String)
    (call : BackendProgram α) (reply : α → GrpcReply) : Rpc GrpcReply := do
  let _ ← authorize auth token access ns
  return reply (← calling call fun _ => internal)

variable [Lowercase] [Serde]

/-- The RPC of a request. -/
def rpc (daemon : Daemon) (token : Option String) : GrpcRequest → Rpc GrpcReply
  | .get key => granted daemon.auth token .read key.ns (Service.get key) .get
  | .put record expected => put daemon.auth token record expected
  | .delete key expected author => delete daemon.auth token key expected author
  | .list q => granted daemon.auth token .read (Http.listNs q) (Service.list q) .keys
  | .getRaw key => granted daemon.auth token .read key.ns (callGetRaw key) .get
  | .listRaw q => granted daemon.auth token .read (Http.listNs q) (Service.listRaw q) .keys
  | .putRaw record expected => putRaw daemon.auth token record expected
  | .purge key expected => purge daemon.auth token key expected
  | .ticketSync conn => ticketSync daemon.auth token conn
  | .graph kind q =>
    granted daemon.auth token .read q.repo (Service.graph daemon.graphs kind q) .answer
  | .putBlob hash content => putBlob daemon.auth token hash content
  | .getBlob hash => granted daemon.auth token .read blobNs (Service.getBlob ⟨hash⟩) .getBlob
  | .hasBlob hash => granted daemon.auth token .read blobNs (callHasBlob ⟨hash⟩) .hasBlob
  | .listBlobs => granted daemon.auth token .read blobNs callListBlobs .listBlobs
  | .deleteBlob hash =>
    granted daemon.auth token .write blobNs (callDeleteBlob ⟨hash⟩) fun _ => .deleteBlob

/-- `serve_grpc`: what the daemon does with a request that carries `token`. The decode
ceiling applies to every RPC. -/
def handle [GrpcMessages] (daemon : Daemon) (token : Option String) (req : GrpcRequest) :
    Rpc GrpcReply :=
  if daemon.maxBlobSize < GrpcMessages.len req then
    .fail ⟨.outOfRange, GrpcMessages.tooLong req⟩
  else rpc daemon token req

end Grpc

end Gonzalo.Server
