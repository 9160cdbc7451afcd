import Gonzalo.Lib.Relay
import Gonzalo.Server.Unseen

/-!
# The client of a daemon

`gonzalo-store-server/src/lib.rs`: a store, with its blobs, each of whose calls is one request
to a daemon over either transport. The libraries in between are parameters, as are the texts
they show.
-/

set_option autoImplicit false

namespace Gonzalo.Server
open Gonzalo.Core Gonzalo.Lib

/-- What lies between a client and its daemon. `carry` is the request that the daemon makes of
one that is sent: the segments of a URL that are empty, `.` or `..` do not arrive as such. The
others are what the client reads of a response: the text or the bytes of a body, the value of
its JSON, the size of a message, and what tonic says of one that is too long. -/
class Wire [CodeGraph] where
  carry : Request → Request
  text : Payload → String
  bytes : Payload → Bytes
  record : Payload → Except String Record
  rawRecord : Payload → Except String (Option Record)
  put : Payload → Except String PutResult
  delete : Payload → Except String DeleteResult
  keys : Payload → Except String (List RecordKey)
  blobs : Payload → Except String (List BlobEntry)
  reply : GrpcReply → Except String GrpcReply
  replyLen : GrpcReply → Nat
  tooLong : GrpcReply → String
  statusText : Status → String

/-- The value is read or, unless it `always` is, reading it fails. -/
def Reads (always : Prop) {ε α : Type} (value : α) (result : Except ε α) : Prop :=
  result = .ok value ∨ ¬ always ∧ ∃ e, result = .error e

namespace Reads
variable {always : Prop} {ε ε' α β : Type} {value : α} {result : Except ε α}

theorem eq_ok (reads : Reads True value result) : result = .ok value :=
  reads.resolve_right fun fails => fails.1 trivial

theorem mapError {rename : ε → ε'} (reads : Reads always value result) :
    Reads always value (result.mapError rename) := by
  rcases reads with rfl | ⟨fails, e, rfl⟩
  · exact .inl rfl
  · exact .inr ⟨fails, _, rfl⟩

theorem bind {f : α → Except ε β} {value' : β} (reads : Reads always value result)
    (later : f value = .ok value') : Reads always value' (result >>= f) := by
  rcases reads with rfl | ⟨fails, e, rfl⟩
  · exact .inl later
  · exact .inr ⟨fails, e, rfl⟩

end Reads

/-- What is read of a response is what it was written from; unless it can `always` be read,
reading it may fail. -/
structure Wire.ReadsBack [CodeGraph] [Wire] (always : Prop) : Prop where
  bytes : ∀ content, Wire.bytes (.blob content) = content
  record : ∀ r, Reads always r (Wire.record (.record r))
  rawRecord : ∀ r, Reads always r (Wire.rawRecord (.rawRecord r))
  put : ∀ outcome, Reads always outcome (Wire.put (.put outcome))
  delete : ∀ outcome, Reads always outcome (Wire.delete (.delete outcome))
  keys : ∀ keys, Reads always keys (Wire.keys (.keys keys))
  blobs : ∀ entries, Reads always entries (Wire.blobs (.blobs entries))
  reply : ∀ reply, Reads always reply (Wire.reply reply)

/-- The port of a daemon: a response, or why none arrived. -/
def wireInterface [CodeGraph] : Interface := ⟨Request, fun _ => Except String Response⟩

namespace Client

/-- `DAEMON_PREDATES_REPLICATION`. -/
def daemonPredatesReplication : String :=
  "daemon predates replication reads (gonzalo#203); upgrade gonzalod"

/-- `DAEMON_PREDATES_BLOB_PRESENCE`. -/
def daemonPredatesBlobPresence : String :=
  "daemon predates the blob presence check (gonzalo#329); upgrade gonzalod"

/-- `upgrade_required`. -/
def upgradeRequired : CoreError := .backend daemonPredatesReplication

variable [CodeGraph] [Wire]

/-! ## HTTP -/

section Http

/-- `read_response_error`, and the same text wherever a status is not expected. -/
def readResponseError (response : HttpResponse) : CoreError :=
  .backend ("daemon returned " ++ response.status.display ++ ": " ++ Wire.text response.payload)

/-- `ensure_read_ok`. -/
def ensureReadOk (response : HttpResponse) : Except CoreError Payload :=
  if response.status = .ok then .ok response.payload else .error (readResponseError response)

/-- `classify_delete_response`. -/
def classifyDeleteResponse (response : HttpResponse) : Except CoreError DeleteResult :=
  match response.status with
  | .ok | .conflict => (Wire.delete response.payload).mapError .serde
  | _ => .error (readResponseError response)

/-- `classify_put_response`: a `400` is the call being wrong. -/
def classifyPutResponse (response : HttpResponse) : Except CoreError PutResult :=
  match response.status with
  | .ok | .conflict => (Wire.put response.payload).mapError .serde
  | .badRequest => .error <| .invalid <|
      "daemon returned " ++ StatusCode.badRequest.display ++ ": " ++ Wire.text response.payload
  | _ => .error (readResponseError response)

/-- `classify_put_response_for`. -/
def classifyPutResponseFor (key : RecordKey) (response : HttpResponse) :
    Except CoreError PutResult :=
  match response.status with
  | .preconditionFailed => .error (.notFound key)
  | _ => classifyPutResponse response

/-- `classify_raw_put_response`. -/
def classifyRawPutResponse (key : RecordKey) (response : HttpResponse) :
    Except CoreError PutResult :=
  match response.status with
  | .notFound => .error upgradeRequired
  | _ => classifyPutResponseFor key response

/-- `classify_raw_get_response`. -/
def classifyRawGetResponse (response : HttpResponse) : Except CoreError (Option Record) :=
  match response.status with
  | .ok => (Wire.rawRecord response.payload).mapError .serde
  | .notFound => .error upgradeRequired
  | _ => .error (readResponseError response)

/-- `classify_raw_list_response`. -/
def classifyRawListResponse (response : HttpResponse) : Except CoreError (List RecordKey) :=
  match response.status with
  | .ok => (Wire.keys response.payload).mapError .serde
  | .notFound => .error upgradeRequired
  | _ => .error (readResponseError response)

/-- `classify_purge_response`. -/
def classifyPurgeResponse (response : HttpResponse) : Except CoreError DeleteResult :=
  match response.status with
  | .notFound => .error upgradeRequired
  | _ => classifyDeleteResponse response

/-- `classify_blob_put_response`. -/
def classifyBlobPutResponse (response : HttpResponse) (hash : ContentHash) :
    Except CoreError ContentHash :=
  match response.status with
  | .ok => .ok hash
  | _ => .error (readResponseError response)

/-- The end of `get`: absence is an answer. -/
def getResponse (response : HttpResponse) : Except CoreError (Option Record) :=
  if response.status = .notFound then .ok none
  else do
    let payload ← ensureReadOk response
    let record ← (Wire.record payload).mapError .backend
    return some record

def listResponse (response : HttpResponse) : Except CoreError (List RecordKey) := do
  let payload ← ensureReadOk response
  (Wire.keys payload).mapError .backend

def getBlobResponse (response : HttpResponse) : Except CoreError (Option Bytes) :=
  if response.status = .notFound then .ok none
  else do
    let payload ← ensureReadOk response
    return some (Wire.bytes payload)

/-- The end of `has_blob`: the answer to a `HEAD` has no body. -/
def hasBlobResponse (response : HttpResponse) : Except CoreError Bool :=
  match response.status with
  | .notFound => .ok false
  | .ok => .ok true
  | status => .error (.backend ("daemon returned " ++ status.display ++ ": "))

def listBlobsResponse (response : HttpResponse) : Except CoreError (List BlobEntry) := do
  let payload ← ensureReadOk response
  (Wire.blobs payload).mapError .backend

def deleteBlobResponse (response : HttpResponse) : Except CoreError Unit :=
  if response.status = .ok then .ok () else .error (readResponseError response)

/-! ### Responses read back -/

section ReadsBack

variable {always : Prop} (readsBack : Wire.ReadsBack always)
include readsBack

theorem getResponse_record (r : Record) :
    Reads always (some r) (getResponse ⟨.ok, .record r⟩) :=
  (readsBack.record r).mapError.bind rfl

theorem listResponse_keys (keys : List RecordKey) :
    Reads always keys (listResponse ⟨.ok, .keys keys⟩) := (readsBack.keys keys).mapError

theorem classifyPutResponseFor_outcome (key : RecordKey) (outcome : PutResult) :
    Reads always outcome (classifyPutResponseFor key (Http.putOutcomeResponse (.ok outcome))) := by
  have read : Reads always outcome ((Wire.put (.put outcome)).mapError CoreError.serde) :=
    (readsBack.put outcome).mapError
  cases outcome <;> exact read

theorem classifyDeleteResponse_outcome (outcome : DeleteResult) :
    Reads always outcome (classifyDeleteResponse (Http.deleteOutcomeResponse (.ok outcome))) := by
  have read : Reads always outcome ((Wire.delete (.delete outcome)).mapError CoreError.serde) :=
    (readsBack.delete outcome).mapError
  cases outcome <;> exact read

theorem classifyRawGetResponse_rawRecord (r : Option Record) :
    Reads always r (classifyRawGetResponse ⟨.ok, .rawRecord r⟩) :=
  (readsBack.rawRecord r).mapError

theorem classifyRawListResponse_keys (keys : List RecordKey) :
    Reads always keys (classifyRawListResponse ⟨.ok, .keys keys⟩) := (readsBack.keys keys).mapError

theorem classifyRawPutResponse_outcome (key : RecordKey) (outcome : PutResult) :
    Reads always outcome (classifyRawPutResponse key (Http.putOutcomeResponse (.ok outcome))) := by
  have read := classifyPutResponseFor_outcome readsBack key outcome
  cases outcome <;> exact read

theorem classifyPurgeResponse_outcome (outcome : DeleteResult) :
    Reads always outcome (classifyPurgeResponse (Http.deleteOutcomeResponse (.ok outcome))) := by
  have read := classifyDeleteResponse_outcome readsBack outcome
  cases outcome <;> exact read

theorem getBlobResponse_blob (content : Bytes) :
    getBlobResponse ⟨.ok, .blob content⟩ = .ok (some content) := by
  change Except.ok (some (Wire.bytes (.blob content))) = _
  rw [readsBack.bytes]

theorem listBlobsResponse_blobs (entries : List BlobEntry) :
    Reads always entries (listBlobsResponse ⟨.ok, .blobs entries⟩) :=
  (readsBack.blobs entries).mapError

end ReadsBack

end Http

/-! ## gRPC -/

/-- `status`. -/
def status (s : Status) : CoreError := .backend (Wire.statusText s)

/-- `replication_status`. -/
def replicationStatus (s : Status) : CoreError :=
  if s.code = .unimplemented then upgradeRequired else status s

/-- `presence_status`. -/
def presenceStatus (s : Status) : CoreError :=
  if s.code = .unimplemented then .backend daemonPredatesBlobPresence else status s

/-- `put_status`. -/
def putStatus (key : RecordKey) (s : Status) : CoreError :=
  if s.code = .failedPrecondition then .notFound key
  else if s.code = .invalidArgument then .invalid s.message
  else status s

/-- `raw_put_status`. -/
def rawPutStatus (key : RecordKey) (s : Status) : CoreError :=
  if s.code = .unimplemented then upgradeRequired else putStatus key s

/-- `DEFAULT_MAX_BLOB_SIZE`, which the client caps decoding at. -/
def maxDecodingMessageSize : Nat := 67108864

/-- The client decodes messages of this size. -/
def Fits (sent : GrpcReply) : Prop := Wire.replyLen sent ≤ maxDecodingMessageSize

instance instDecidableFits (sent : GrpcReply) : Decidable (Fits sent) :=
  inferInstanceAs (Decidable (Wire.replyLen sent ≤ maxDecodingMessageSize))

/-- What arrives of a reply. -/
def received (result : Except Status GrpcReply) : Except Status GrpcReply := do
  let sent ← result
  if Fits sent then .ok sent else .error ⟨.outOfRange, Wire.tooLong sent⟩

/-- The reply of a method, once its JSON is read. -/
def reply {α : Type} (failure : Status → CoreError) (read : GrpcReply → Option α)
    (result : Except Status GrpcReply) : Except CoreError α := do
  let sent ← (received result).mapError failure
  let message ← (Wire.reply sent).mapError .serde
  -- A method answers with messages of its own type, so `read` knows all that come.
  (read message).elim (.error (.backend "")) .ok

theorem reply_ok {always : Prop} (readsBack : Wire.ReadsBack always) {α : Type}
    (failure : Status → CoreError) (read : GrpcReply → Option α) {message : GrpcReply} {value : α}
    (fits : Fits message) (known : read message = some value) :
    Reads always value (reply failure read (.ok message)) := by
  have arrives : received (.ok message) = .ok message := if_pos fits
  unfold reply
  rw [arrives]
  apply (readsBack.reply message).mapError.bind
  rw [known]
  rfl

/-- A reply that is too long is a failure. -/
theorem reply_long {α : Type} (failure : Status → CoreError) (read : GrpcReply → Option α)
    {message : GrpcReply} (long : ¬ Fits message) :
    ∃ e, reply failure read (.ok message) = .error e := by
  have refused : received (.ok message) = .error ⟨.outOfRange, Wire.tooLong message⟩ := if_neg long
  unfold reply
  rw [refused]
  exact ⟨_, rfl⟩

variable [Blake3]

/-! ## The store -/

/-- The HTTP request of a call. A blob is addressed by its own hash. -/
def httpRequest : BackendReq → HttpRequest
  | .store (.get key) => .getRecord key
  | .store (.list keys) => .listKeys keys
  | .store (.put record expected) => .putRecord record.key ⟨record, expected⟩
  | .store (.deleteAs key expected author) => .deleteRecord key (some ⟨expected, author⟩)
  | .store (.getRaw key) => .getRawRecord key
  | .store (.listRaw keys) => .listRawKeys keys
  | .store (.putRaw record expected) => .putRawRecord record.key ⟨record, expected⟩
  | .store (.purge key expected) => .purgeRecord key (.ok expected)
  | .putBlob content => .putBlob (ContentHash.of content).text content
  | .getBlob hash => .getBlob hash.text
  | .hasBlob hash => .headBlob hash.text
  | .listBlobs => .listBlobs
  | .deleteBlob hash => .deleteBlob hash.text

/-- The gRPC request of a call. -/
def grpcRequest : BackendReq → GrpcRequest
  | .store (.get key) => .get key
  | .store (.list keys) => .list keys
  | .store (.put record expected) => .put (.ok record) (.ok expected)
  | .store (.deleteAs key expected author) => .delete key (.ok expected) (.ok author)
  | .store (.getRaw key) => .getRaw key
  | .store (.listRaw keys) => .listRaw keys
  | .store (.putRaw record expected) => .putRaw (.ok record) (.ok expected)
  | .store (.purge key expected) => .purge key (.ok expected)
  | .putBlob content => .putBlob (ContentHash.of content).text content
  | .getBlob hash => .getBlob hash.text
  | .hasBlob hash => .hasBlob hash.text
  | .listBlobs => .listBlobs
  | .deleteBlob hash => .deleteBlob hash.text

/-- What a call returns once its HTTP response is there. -/
def httpAnswer : (req : BackendReq) → HttpResponse → req.Ans
  | .store (.get _), response => getResponse response
  | .store (.list _), response => listResponse response
  | .store (.put record _), response => classifyPutResponseFor record.key response
  | .store (.deleteAs _ _ _), response => classifyDeleteResponse response
  | .store (.getRaw _), response => classifyRawGetResponse response
  | .store (.listRaw _), response => classifyRawListResponse response
  | .store (.putRaw record _), response => classifyRawPutResponse record.key response
  | .store (.purge _ _), response => classifyPurgeResponse response
  | .putBlob content, response => classifyBlobPutResponse response (.of content)
  | .getBlob _, response => getBlobResponse response
  | .hasBlob _, response => hasBlobResponse response
  | .listBlobs, response => listBlobsResponse response
  | .deleteBlob _, response => deleteBlobResponse response

/-- What a call returns once its gRPC reply is there. -/
def grpcAnswer : (req : BackendReq) → Except Status GrpcReply → req.Ans
  | .store (.get _), result => reply status (fun | .get r => some r | _ => none) result
  | .store (.list _), result => reply status (fun | .keys keys => some keys | _ => none) result
  | .store (.put record _), result =>
    reply (putStatus record.key) (fun | .put outcome => some outcome | _ => none) result
  | .store (.deleteAs _ _ _), result =>
    reply status (fun | .delete outcome => some outcome | _ => none) result
  | .store (.getRaw _), result =>
    reply replicationStatus (fun | .get r => some r | _ => none) result
  | .store (.listRaw _), result =>
    reply replicationStatus (fun | .keys keys => some keys | _ => none) result
  | .store (.putRaw record _), result =>
    reply (rawPutStatus record.key) (fun | .put outcome => some outcome | _ => none) result
  | .store (.purge _ _), result =>
    reply replicationStatus (fun | .delete outcome => some outcome | _ => none) result
  | .putBlob _, result => reply status (fun | .putBlob hash => some hash | _ => none) result
  | .getBlob _, result => reply status (fun | .getBlob content => some content | _ => none) result
  | .hasBlob _, result =>
    reply presenceStatus (fun | .hasBlob found => some found | _ => none) result
  | .listBlobs, result => reply status (fun | .listBlobs entries => some entries | _ => none) result
  | .deleteBlob _, result => reply status (fun | .deleteBlob => some () | _ => none) result

end Client

/-- The two backends of a `ServerStore`. -/
inductive Transport where
  | http | grpc
  deriving DecidableEq, Repr

section Remote

variable [CodeGraph] [Wire] [Blake3]

/-- The request of a call. -/
def Transport.request (transport : Transport) (req : BackendReq) : Request :=
  match transport with
  | .http => .http (Client.httpRequest req)
  | .grpc => .grpc (Client.grpcRequest req)

/-- What a call returns. -/
def remoteAnswer (req : BackendReq) : Except String Response → req.Ans
  | .error e => req.failed (.backend e)
  | .ok (.http response) => Client.httpAnswer req response
  | .ok (.grpc result) => Client.grpcAnswer req result

/-- `ServerStore`: a program of a backend, with its calls sent to a daemon. -/
def serverStore (transport : Transport) : Interface.Part backendInterface wireInterface :=
  ⟨transport.request, remoteAnswer⟩

end Remote

end Gonzalo.Server
