import Gonzalo.Server.Client
import Gonzalo.Server.Confinement

/-!
# A store behind a daemon

A client of a `ServerStore` shares the daemon's backend with everyone else. Each of its calls,
over either transport, is one call of that backend, made between others' calls, or a call that
fails, with its effect or without: the connection may break at any point. So a run of any
program over the remote store is a run of that program at the backend itself.
-/

set_option autoImplicit false

namespace Gonzalo.Server
open Gonzalo.Core Gonzalo.Lib
open Gonzalo.Tickets (Lowercase plainNames)

/-! ## Calls of a shared backend -/

section Shared

variable [Blake3] {w w' : Backend} {req : BackendReq} {answer : req.Ans}

/-- Somebody's call of the backend. -/
def Moves (w w' : Backend) : Prop := ∃ (req : BackendReq) (answer : req.Ans), w.Served req answer w'

/-- A call of the backend while others make theirs. -/
abbrev Shared (w : Backend) (req : BackendReq) (answer : req.Ans) (w' : Backend) : Prop :=
  @Amid backendInterface Backend Moves Backend.Served w req answer w'

theorem Shared.moved (shared : Shared w req answer w') : Relation.ReflTransGen Moves w w' :=
  Amid.moved (fun _ req answer _ served => ⟨req, answer, served⟩) shared

theorem Shared.lost (shared : Shared w req answer w') (e : CoreError) :
    Shared w req (req.failed e) w' :=
  Amid.answer_changed shared fun _ _ served => .lost served e

theorem shared_failed (moved : Relation.ReflTransGen Moves w w') (e : CoreError) :
    Shared w req (req.failed e) w' :=
  Amid.before moved (Amid.of_served (.failed req e))

/-- A call that a daemon makes for a principal: what it puts carries its author, and what it
deletes as well. -/
def ServedFor (principal : Principal) (w : Backend) :
    (req : BackendReq) → req.Ans → Backend → Prop
  | .store (.put record expected), answer, w' =>
    Shared w (.store (.put (Http.stamped principal record) expected)) answer w'
  | .store (.deleteAs key expected author), answer, w' =>
    Shared w (.store (.deleteAs key expected (principal.deleteAuthor author))) answer w'
  | req, answer, w' => Shared w req answer w'

variable {principal : Principal}

theorem servedFor_failed (req : BackendReq) (moved : Relation.ReflTransGen Moves w w')
    (e : CoreError) : ServedFor principal w req (req.failed e) w' := by
  cases req with
  | store req => cases req <;> exact shared_failed moved e
  | _ => exact shared_failed moved e

theorem ServedFor.moved (served : ServedFor principal w req answer w') :
    Relation.ReflTransGen Moves w w' := by
  cases req with
  | store req => cases req <;> exact Shared.moved served
  | _ => exact Shared.moved served

theorem ServedFor.lost (served : ServedFor principal w req answer w') (e : CoreError) :
    ServedFor principal w req (req.failed e) w' := by
  cases req with
  | store req => cases req <;> exact Shared.lost served e
  | _ => exact Shared.lost served e

/-- What a client sees of an answer: the answer or, unless it `always` is read, a failure. -/
def ReadsAnswer (always : Prop) (answer seen : req.Ans) : Prop :=
  seen = answer ∨ ¬ always ∧ ∃ e, seen = req.failed e

theorem Shared.read {always : Prop} {seen : req.Ans} (shared : Shared w req answer w')
    (reads : ReadsAnswer always answer seen) : Shared w req seen w' := by
  rcases reads with rfl | ⟨-, e, rfl⟩
  · exact shared
  · exact shared.lost e

theorem ServedFor.read {always : Prop} {seen : req.Ans} (served : ServedFor principal w req answer w')
    (reads : ReadsAnswer always answer seen) : ServedFor principal w req seen w' := by
  rcases reads with rfl | ⟨-, e, rfl⟩
  · exact served
  · exact served.lost e

/-- What a backend may answer to the call. -/
def Answered (req : BackendReq) (answer : req.Ans) : Prop := ∃ w w', Backend.Served w req answer w'

/-- A blob that is stored is stored under its hash. -/
theorem Answered.stored {content : Bytes} {hash : ContentHash}
    (answered : Answered (.putBlob content) (.ok hash)) : hash = .of content := by
  obtain ⟨w, w', served⟩ := answered
  cases served with
  | putBlob => rfl

theorem Shared.answered (shared : Shared w req answer w') : Answered req answer := by
  obtain ⟨v, v', -, served, -⟩ := shared
  exact ⟨v, v', served⟩

/-- The calls that the daemon forwards as they are. -/
def Forwarded : BackendReq → Prop
  | .store (.put _ _) | .store (.deleteAs _ _ _) => False
  | .store (.putRaw _ _) | .store (.purge _ _) => False
  | _ => True

theorem servedFor_forwarded (forwarded : Forwarded req) (shared : Shared w req answer w') :
    ServedFor principal w req answer w' := by
  cases req with
  | store req =>
    cases req with
    | put | deleteAs => exact forwarded.elim
    | _ => exact shared
  | _ => exact shared

/-- The implicit principal of a daemon without auth stamps nothing. -/
theorem servedFor_open : ServedFor .open w req answer w' ↔ Shared w req answer w' := by
  cases req with
  | store req =>
    cases req with
    | deleteAs key expected author => cases author <;> exact Iff.rfl
    | _ => exact Iff.rfl
  | _ => exact Iff.rfl

end Shared

/-! ## What a client sees of a daemon -/

section Serve

variable [CodeGraph] [Wire] [Blake3] [Lowercase] [DebugFmt] [Serde] [HttpBodies] [GrpcMessages]

/-- Whom the daemon takes the holder of the token for. Without a principal it does nothing. -/
def Daemon.caller (daemon : Daemon) (token : Option String) : Principal :=
  (daemon.auth.authenticate token).getD .open

/-- A request arrives and is answered, or the connection breaks at some point, so that the
client sees a text or a status of its own libraries. -/
inductive Daemon.Serves (daemon : Daemon) (token : Option String) (w : Backend) (req : Request) :
    Except String Response → Backend → Prop
  | answered {response : Response} {w' : Backend}
      (run : Program.Runs Shared w (daemon.respond token (Wire.carry req)) w' (.ok response)) :
      Serves daemon token w req (.ok response) w'
  | broken {w' : Backend} (cut : Program.Cut Shared w (daemon.respond token (Wire.carry req)) w')
      (e : String) : Serves daemon token w req (.error e) w'
  | status {w' : Backend} (cut : Program.Cut Shared w (daemon.respond token (Wire.carry req)) w')
      (s : Status) (grpc : ∃ sent, req = .grpc sent) :
      Serves daemon token w req (.ok (.grpc (.error s))) w'

/-- Requests that arrive as they were sent. -/
def Daemon.ServesCarried (daemon : Daemon) (token : Option String) (w : Backend) (req : Request)
    (answer : Except String Response) (w' : Backend) : Prop :=
  Wire.carry req = req ∧ daemon.Serves token w req answer w'

end Serve

/-! ## Answers over HTTP -/

section Http

variable [CodeGraph] [Wire] [Blake3] {always : Prop} {principal : Principal} {w : Backend}
  {req : BackendReq}

/-- Whatever the handler answers, the client reads as an answer of the backend. -/
def HttpMeets (principal : Principal) (w : Backend) (req : BackendReq)
    (handler : ServiceProgram Empty HttpResponse) : Prop :=
  Wp (.ofRelation Shared) (fun w' result => ∀ response, result = .ok response →
    ServedFor principal w req (Client.httpAnswer req response) w') w handler

/-- No call is answered by a status that says that the daemon refused it. -/
theorem httpAnswer_refused (req : BackendReq) {response : HttpResponse}
    (failed : response.status ≠ .ok) (refused : response.status ≠ .conflict)
    (found : response.status ≠ .notFound) :
    ∃ e, Client.httpAnswer req response = req.failed e := by
  obtain ⟨status, payload⟩ := response
  cases status <;> first
    | exact absurd rfl failed
    | exact absurd rfl refused
    | exact absurd rfl found
    | cases req with
      | store req => cases req <;> exact ⟨_, rfl⟩
      | _ => exact ⟨_, rfl⟩

omit [CodeGraph] [Wire] in
/-- A call whose answer is propagated. -/
theorem wp_shared {α : Type} (call : BackendReq) (f : call.Ans → Except CoreError α)
    {post : Backend → Except CoreError α → Prop}
    (holds : ∀ answer w', Shared w call answer w' → post w' (f answer)) :
    Wp (.ofRelation Shared) post w (callBackend call >>= fun answer => .ofExcept (f answer)) := by
  refine ⟨trivial, fun answer w' shared => ?_⟩
  have held := holds answer w' shared
  change Wp _ post w' (Program.ofExcept (f answer))
  generalize f answer = ended at held
  cases ended with
  | error e => exact held
  | ok value => exact held

namespace HttpMeets

theorem refused {response : HttpResponse} (failed : response.status ≠ .ok)
    (refused : response.status ≠ .conflict) (found : response.status ≠ .notFound) :
    HttpMeets principal w req (return response) := by
  intro response' same
  cases same
  obtain ⟨e, error⟩ := httpAnswer_refused req failed refused found
  rw [error]
  exact servedFor_failed req .refl e

theorem authorized [DebugFmt] {handler : ServiceProgram Empty HttpResponse} (caller : Principal)
    (access : Access) (ns : String) (meets : HttpMeets principal w req handler) :
    HttpMeets principal w req (Http.authorized caller access ns handler) := by
  unfold Http.authorized
  split
  · apply refused <;> simp [Http.forbidden, Http.textResponse]
  · exact meets

theorem answering {α : Type} {call : BackendProgram α}
    {respond : Except CoreError α → HttpResponse}
    (holds : Wp (.ofRelation Shared) (fun w' result =>
      ServedFor principal w req (Client.httpAnswer req (respond result)) w') w call) :
    HttpMeets principal w req (Http.answering call respond) := by
  have attempted : Wp (.ofRelation Shared) (fun w' (ended : Except Empty (Except CoreError α)) =>
      ∀ result, ended = .ok result →
        ServedFor principal w req (Client.httpAnswer req (respond result)) w') w call.attempt := by
    apply Wp.attempt
    apply holds.mono
    intro w' result served result' same
    cases same
    exact served
  apply attempted.bind
  · intro w' result served response same
    cases same
    exact served result rfl
  · intro w' e
    exact e.elim

end HttpMeets

omit [CodeGraph] [Wire] in
/-- The service's purge is that of the backend, or is refused. -/
theorem wp_servicePurge (w : Backend) (key : RecordKey) (expected : Revision) :
    Wp (.ofRelation Shared) (fun w' result => Shared w (.store (.purge key expected)) result w') w
      (Service.purge key expected) := by
  have removed : ∀ w₁, Relation.ReflTransGen Moves w w₁ → Wp (.ofRelation Shared)
      (fun w' result => Shared w (.store (.purge key expected)) result w') w₁
      ((StoreProgram.purge key expected).lift storePart : BackendProgram DeleteResult) := by
    intro w₁ earlier
    refine ⟨trivial, fun answer w' shared => ?_⟩
    have held := Amid.before earlier shared
    change Wp _ _ w' (Program.lift storePart (.ofExcept answer))
    cases answer with
    | error e => exact held
    | ok outcome => exact held
  refine ⟨trivial, fun answer w₁ shared => ?_⟩
  have earlier := Shared.moved shared
  cases answer with
  | error e => exact shared_failed earlier e
  | ok found =>
    cases found with
    | none => exact removed w₁ earlier
    | some current =>
      change Wp _ _ w₁ (Program.lift storePart
        (if !current.isTombstone && current.revision = expected then
          .fail (liveRefusal key current)
        else StoreProgram.purge key expected))
      split
      · exact shared_failed earlier _
      · exact removed w₁ earlier

namespace HttpMeets

/-- A handler that makes one call. -/
theorem one {α : Type} (call : BackendReq) (f : call.Ans → Except CoreError α)
    {respond : Except CoreError α → HttpResponse}
    (holds : ∀ answer w', Shared w call answer w' →
      ServedFor principal w req (Client.httpAnswer req (respond (f answer))) w') :
    HttpMeets principal w req
      (Http.answering (callBackend call >>= fun answer => .ofExcept (f answer)) respond) :=
  answering (wp_shared call f holds)

end HttpMeets

/-- The handler makes the client's own call and answers a failure with an internal error, and
the client reads a success as what the backend answered. -/
def HttpForwards [DebugFmt] (always : Prop) (principal : Principal) (req : BackendReq)
    (handler : ServiceProgram Empty HttpResponse) : Prop :=
  ∃ (α : Type) (f : req.Ans → Except CoreError α) (respond : α → HttpResponse) (access : Access)
    (ns : String), handler = Http.authorized principal access ns
      (Http.answering (callBackend req >>= fun answer => .ofExcept (f answer))
        (Http.orServerError respond)) ∧
    (∀ answer e, f answer = .error e → answer = req.failed e) ∧
    ∀ answer value, Answered req answer → f answer = .ok value →
      ReadsAnswer always answer (Client.httpAnswer req (respond value))

theorem httpForwards_route [Lowercase] [DebugFmt] [Serde] (readsBack : Wire.ReadsBack always)
    (daemon : Daemon) (principal : Principal) {req : BackendReq} (forwarded : Forwarded req) :
    HttpForwards always principal req
      (Http.route daemon principal (Client.httpRequest req)) := by
  cases req with
  | store req =>
    cases req with
    | get key =>
      refine ⟨_, fun answer => answer, _, _, _, rfl, fun _ _ failed => failed, ?_⟩
      intro answer found _ ended
      obtain rfl : answer = .ok found := ended
      cases found with
      | none => exact .inl rfl
      | some r => exact Client.getResponse_record readsBack r
    | list keys =>
      refine ⟨_, fun answer => answer, _, _, _, rfl, fun _ _ failed => failed, ?_⟩
      intro answer listed _ ended
      obtain rfl : answer = .ok listed := ended
      exact Client.listResponse_keys readsBack listed
    | getRaw key =>
      refine ⟨_, fun answer => answer, _, _, _, rfl, fun _ _ failed => failed, ?_⟩
      intro answer found _ ended
      obtain rfl : answer = .ok found := ended
      exact Client.classifyRawGetResponse_rawRecord readsBack found
    | listRaw keys =>
      refine ⟨_, fun answer => answer, _, _, _, rfl, fun _ _ failed => failed, ?_⟩
      intro answer listed _ ended
      obtain rfl : answer = .ok listed := ended
      exact Client.classifyRawListResponse_keys readsBack listed
    | _ => exact forwarded.elim
  | putBlob content =>
    have addressed : ¬ (ContentHash.of content).text ≠ (ContentHash.of content).text :=
      fun other => other rfl
    change HttpForwards always principal _
      (Http.putBlob principal (ContentHash.of content).text content)
    rw [Http.putBlob, if_neg addressed]
    refine ⟨_, fun answer => answer, _, _, _, rfl, fun _ _ failed => failed, ?_⟩
    intro answer hash answered ended
    obtain rfl : answer = Except.ok hash := ended
    rw [answered.stored]
    exact .inl rfl
  | getBlob hash =>
    refine ⟨_, fun answer => answer, _, _, _, rfl, fun _ _ failed => failed, ?_⟩
    intro answer found _ ended
    obtain rfl : answer = .ok found := ended
    cases found with
    | none => exact .inl rfl
    | some content => exact .inl (Client.getBlobResponse_blob readsBack content)
  | hasBlob hash =>
    refine ⟨_, fun answer => answer, _, _, _, rfl, fun _ _ failed => failed, ?_⟩
    intro answer found _ ended
    obtain rfl : answer = .ok found := ended
    cases found <;> exact .inl rfl
  | listBlobs =>
    refine ⟨_, fun answer => answer, _, _, _, rfl, fun _ _ failed => failed, ?_⟩
    intro answer entries _ ended
    obtain rfl : answer = .ok entries := ended
    exact Client.listBlobsResponse_blobs readsBack entries
  | deleteBlob hash =>
    refine ⟨_, fun answer => answer, _, _, _, rfl, fun _ _ failed => failed, ?_⟩
    intro answer _ _ ended
    exact .inl ended.symm

theorem HttpForwards.meets [DebugFmt] {handler : ServiceProgram Empty HttpResponse}
    (forwards : HttpForwards always principal req handler) (forwarded : Forwarded req) :
    HttpMeets principal w req handler := by
  obtain ⟨α, f, respond, access, ns, rfl, failed, reads⟩ := forwards
  apply HttpMeets.authorized
  apply HttpMeets.one
  intro answer w' shared
  cases ended : f answer with
  | error e =>
    have refused : ∃ e', Client.httpAnswer req Http.serverError = req.failed e' := by
      apply httpAnswer_refused <;> simp [Http.serverError, Http.textResponse]
    obtain ⟨e', refused⟩ := refused
    change ServedFor principal w req (Client.httpAnswer req Http.serverError) w'
    rw [refused]
    exact servedFor_failed req shared.moved e'
  | ok value =>
    have served : ServedFor principal w req answer w' := servedFor_forwarded forwarded shared
    exact served.read (reads answer value shared.answered ended)

omit [Wire] [Blake3] in
theorem pathKeyMismatch_self (key : RecordKey) : Http.pathKeyMismatch key key = none := by
  simp [Http.pathKeyMismatch]

/-- Each route answers a call as the backend does, or refuses it. -/
theorem httpMeets_route [Lowercase] [DebugFmt] [Serde] (readsBack : Wire.ReadsBack always)
    (daemon : Daemon) (principal : Principal) (w : Backend) (req : BackendReq) :
    HttpMeets principal w req (Http.route daemon principal (Client.httpRequest req)) := by
  by_cases forwarded : Forwarded req
  · exact (httpForwards_route readsBack daemon principal forwarded).meets forwarded
  cases req with
  | store req =>
    cases req with
    | put record expected =>
      change HttpMeets principal w _ (Http.putRecord principal record.key ⟨record, expected⟩)
      rw [Http.putRecord, pathKeyMismatch_self]
      apply HttpMeets.authorized
      apply HttpMeets.one (.store (.put (Http.stamped principal record) expected)) fun answer => answer
      intro answer w' shared
      cases answer with
      | error e => cases e <;> exact shared.lost _
      | ok outcome =>
        have reads := Client.classifyPutResponseFor_outcome readsBack record.key outcome
        exact shared.read reads
    | deleteAs key expected author =>
      apply HttpMeets.authorized
      apply HttpMeets.one (.store (.deleteAs key expected (principal.deleteAuthor author)))
        fun answer => answer
      intro answer w' shared
      cases answer with
      | error e => cases e <;> exact shared.lost _
      | ok outcome =>
        have reads := Client.classifyDeleteResponse_outcome readsBack outcome
        exact shared.read reads
    | putRaw record expected =>
      change HttpMeets principal w _ (Http.putRawRecord principal record.key ⟨record, expected⟩)
      rw [Http.putRawRecord, pathKeyMismatch_self]
      split
      · apply HttpMeets.refused <;> simp [Http.forbiddenAdmin, Http.textResponse]
      · apply HttpMeets.one (.store (.putRaw record expected)) fun answer => answer
        intro answer w' shared
        cases answer with
        | error e => cases e <;> exact shared.lost _
        | ok outcome =>
          have reads := Client.classifyRawPutResponse_outcome readsBack record.key outcome
          exact shared.read reads
    | purge key expected =>
      change HttpMeets principal w _ (Http.purgeRecord principal key (.ok expected))
      rw [Http.purgeRecord]
      split
      · apply HttpMeets.refused <;> simp [Http.forbiddenAdmin, Http.textResponse]
      · apply HttpMeets.answering
        apply (wp_servicePurge w key expected).mono
        intro w' result served
        cases result with
        | error e => cases e <;> exact served.lost _
        | ok outcome =>
          have reads := Client.classifyPurgeResponse_outcome readsBack outcome
          exact served.read reads
    | _ => exact absurd trivial forwarded
  | _ => exact absurd trivial forwarded

end Http

/-! ## Answers over gRPC -/

section Grpc

variable [CodeGraph] [Wire] [Blake3] {always : Prop} {principal : Principal} {w : Backend}
  {req : BackendReq}

/-- Whatever the RPC ends with, the client reads as an answer of the backend. -/
def GrpcMeets (principal : Principal) (w : Backend) (req : BackendReq)
    (rpc : Grpc.Rpc GrpcReply) : Prop :=
  Wp (.ofRelation Shared)
    (fun w' result => ServedFor principal w req (Client.grpcAnswer req result) w') w rpc

omit [Blake3] in
theorem grpcAnswer_error (req : BackendReq) (s : Status) :
    ∃ e, Client.grpcAnswer req (.error s) = req.failed e := by
  cases req with
  | store req => cases req <;> exact ⟨_, rfl⟩
  | _ => exact ⟨_, rfl⟩

omit [Blake3] in
theorem grpcAnswer_long (req : BackendReq) {sent : GrpcReply} (long : ¬ Client.Fits sent) :
    ∃ e, Client.grpcAnswer req (.ok sent) = req.failed e := by
  cases req with
  | store req => cases req <;> exact Client.reply_long _ _ long
  | _ => exact Client.reply_long _ _ long

omit [Blake3] in
/-- A reply that is too long is not read. -/
theorem read_or_failed {req : BackendReq} {sent : GrpcReply} {answer : req.Ans}
    (reads : Client.Fits sent → ReadsAnswer always answer (Client.grpcAnswer req (.ok sent))) :
    ReadsAnswer False answer (Client.grpcAnswer req (.ok sent)) := by
  by_cases fits : Client.Fits sent
  · rcases reads fits with read | ⟨-, failed⟩
    · exact .inl read
    · exact .inr ⟨id, failed⟩
  · exact .inr ⟨id, grpcAnswer_long req fits⟩

namespace GrpcMeets

theorem fail (s : Status) : GrpcMeets principal w req (.fail s) := by
  obtain ⟨e, failed⟩ := grpcAnswer_error req s
  change ServedFor principal w req (Client.grpcAnswer req (.error s)) w
  rw [failed]
  exact servedFor_failed req .refl e

theorem authenticated {auth : Auth} {token : Option String} {rpc : Principal → Grpc.Rpc GrpcReply}
    (meets : ∀ caller, auth.authenticate token = some caller →
      GrpcMeets principal w req (rpc caller)) :
    GrpcMeets principal w req (Grpc.authenticate auth token >>= rpc) := by
  unfold Grpc.authenticate
  cases known : auth.authenticate token with
  | none => exact fail _
  | some caller => exact meets caller known

variable [DebugFmt]

theorem checked {caller : Principal} {access : Access} {ns : String} {rpc : Grpc.Rpc GrpcReply}
    (meets : GrpcMeets principal w req rpc) :
    GrpcMeets principal w req (Grpc.checkAccess caller access ns >>= fun _ => rpc) := by
  unfold Grpc.checkAccess
  split
  · exact meets
  · exact fail _

theorem authorized {auth : Auth} {token : Option String} {access : Access} {ns : String}
    {rpc : Grpc.Rpc GrpcReply} (meets : GrpcMeets principal w req rpc) :
    GrpcMeets principal w req (Grpc.authorize auth token access ns >>= fun _ => rpc) := by
  apply Wp.assoc
  apply authenticated
  intro caller known
  apply Wp.assoc
  exact checked meets

theorem administered {auth : Auth} {token : Option String} {operation : String}
    {rpc : Grpc.Rpc GrpcReply} (meets : GrpcMeets principal w req rpc) :
    GrpcMeets principal w req (Grpc.authorizeAdmin auth token operation >>= fun _ => rpc) := by
  apply Wp.assoc
  apply authenticated
  intro caller known
  split
  · exact meets
  · exact fail _

omit [DebugFmt] in
theorem answering {α : Type} {call : BackendProgram α} {failure : CoreError → Status}
    {respond : α → GrpcReply}
    (holds : Wp (.ofRelation Shared) (fun w' result => ServedFor principal w req
      (Client.grpcAnswer req ((result.mapError failure).map respond)) w') w call) :
    GrpcMeets principal w req
      (Grpc.calling call failure >>= fun value => return respond value) := by
  have renamed : Wp (.ofRelation Shared) (fun w' (result : Except Status α) =>
      ServedFor principal w req (Client.grpcAnswer req (result.map respond)) w') w
      (Grpc.calling call failure) := Wp.mapError holds
  apply renamed.bind
  · intro w' value served
    exact served
  · intro w' s served
    exact served

omit [DebugFmt] in
/-- An RPC that makes one call. -/
theorem one {α : Type} (call : BackendReq) (f : call.Ans → Except CoreError α)
    {failure : CoreError → Status} {respond : α → GrpcReply}
    (holds : ∀ answer w', Shared w call answer w' → ServedFor principal w req
      (Client.grpcAnswer req (((f answer).mapError failure).map respond)) w') :
    GrpcMeets principal w req
      (Grpc.calling (callBackend call >>= fun answer => .ofExcept (f answer)) failure >>=
        fun value => return respond value) :=
  answering (wp_shared call f holds)

end GrpcMeets

/-- The RPC makes the client's own call once the principal may, and the client reads its reply
as what the backend answered, unless it is too long. -/
def GrpcForwards [DebugFmt] (always : Prop) (auth : Auth) (token : Option String) (req : BackendReq)
    (rpc : Grpc.Rpc GrpcReply) : Prop :=
  ∃ (α : Type) (f : req.Ans → Except CoreError α) (failure : CoreError → Status)
    (respond : α → GrpcReply) (access : Access) (ns : String),
    rpc = (Grpc.authorize auth token access ns >>= fun _ =>
      Grpc.calling (callBackend req >>= fun answer => .ofExcept (f answer)) failure >>=
        fun value => return respond value) ∧
    (∀ answer e, f answer = .error e → answer = req.failed e) ∧
    ∀ answer value, f answer = .ok value → Client.Fits (respond value) →
      ReadsAnswer always answer (Client.grpcAnswer req (.ok (respond value)))

theorem grpcForwards_rpc [Lowercase] [DebugFmt] [Serde] (readsBack : Wire.ReadsBack always)
    (daemon : Daemon) (token : Option String) {req : BackendReq} (forwarded : Forwarded req) :
    GrpcForwards always daemon.auth token req (Grpc.rpc daemon token (Client.grpcRequest req)) := by
  cases req with
  | store req =>
    cases req with
    | get | list | getRaw | listRaw =>
      refine ⟨_, fun answer => answer, _, _, _, _, rfl, fun _ _ failed => failed, ?_⟩
      intro answer value ended fits
      obtain rfl : answer = Except.ok value := ended
      exact Client.reply_ok readsBack _ _ fits rfl
    | _ => exact forwarded.elim
  | putBlob content =>
    have addressed : ¬ (ContentHash.of content).text ≠ (ContentHash.of content).text :=
      fun other => other rfl
    change GrpcForwards always daemon.auth token _
      (Grpc.putBlob daemon.auth token (ContentHash.of content).text content)
    rw [Grpc.putBlob, if_neg addressed]
    refine ⟨_, fun answer => answer, _, _, _, _, rfl, fun _ _ failed => failed, ?_⟩
    intro answer hash ended fits
    obtain rfl : answer = Except.ok hash := ended
    exact Client.reply_ok readsBack _ _ fits rfl
  | _ =>
    refine ⟨_, fun answer => answer, _, _, _, _, rfl, fun _ _ failed => failed, ?_⟩
    intro answer value ended fits
    obtain rfl : answer = Except.ok value := ended
    exact Client.reply_ok readsBack _ _ fits rfl

theorem GrpcForwards.meets [DebugFmt] {auth : Auth} {token : Option String}
    {rpc : Grpc.Rpc GrpcReply} (forwards : GrpcForwards always auth token req rpc)
    (forwarded : Forwarded req) : GrpcMeets principal w req rpc := by
  obtain ⟨α, f, failure, respond, access, ns, rfl, failed, reads⟩ := forwards
  apply GrpcMeets.authorized
  apply GrpcMeets.one
  intro answer w' shared
  cases ended : f answer with
  | error e =>
    obtain ⟨e', refused⟩ := grpcAnswer_error req (failure e)
    change ServedFor principal w req (Client.grpcAnswer req (.error (failure e))) w'
    rw [refused]
    exact servedFor_failed req shared.moved e'
  | ok value =>
    have served : ServedFor principal w req answer w' := servedFor_forwarded forwarded shared
    exact served.read (read_or_failed (reads answer value ended))

section Outcomes

variable (readsBack : Wire.ReadsBack always)
include readsBack

omit [Blake3]

/-! The replies of the calls that the daemon changes or refuses. -/

theorem reads_put (record : Record) (expected : Option Revision) (outcome : PutResult)
    (fits : Client.Fits (.put outcome)) : Reads always outcome
      (Client.grpcAnswer (.store (.put record expected)) (.ok (.put outcome))) :=
  Client.reply_ok readsBack _ _ fits rfl

theorem reads_putRaw (record : Record) (expected : Option Revision) (outcome : PutResult)
    (fits : Client.Fits (.put outcome)) : Reads always outcome
      (Client.grpcAnswer (.store (.putRaw record expected)) (.ok (.put outcome))) :=
  Client.reply_ok readsBack _ _ fits rfl

theorem reads_deleteAs (key : RecordKey) (expected : Option Revision) (author : Option Identity)
    (outcome : DeleteResult) (fits : Client.Fits (.delete outcome)) : Reads always outcome
      (Client.grpcAnswer (.store (.deleteAs key expected author)) (.ok (.delete outcome))) :=
  Client.reply_ok readsBack _ _ fits rfl

theorem reads_purge (key : RecordKey) (expected : Revision) (outcome : DeleteResult)
    (fits : Client.Fits (.delete outcome)) : Reads always outcome
      (Client.grpcAnswer (.store (.purge key expected)) (.ok (.delete outcome))) :=
  Client.reply_ok readsBack _ _ fits rfl

end Outcomes

/-- Each RPC answers a call as the backend does, or ends with a status. -/
theorem grpcMeets_rpc [Lowercase] [DebugFmt] [Serde] (readsBack : Wire.ReadsBack always)
    (daemon : Daemon) (token : Option String) (w : Backend) (req : BackendReq) :
    GrpcMeets (daemon.caller token) w req
      (Grpc.rpc daemon token (Client.grpcRequest req)) := by
  by_cases forwarded : Forwarded req
  · exact (grpcForwards_rpc readsBack daemon token forwarded).meets forwarded
  cases req with
  | store req =>
    cases req with
    | put record expected =>
      apply GrpcMeets.authenticated
      intro caller known
      have same : daemon.caller token = caller := by simp [Daemon.caller, known]
      rw [same]
      apply GrpcMeets.checked
      apply GrpcMeets.one (.store (.put (Http.stamped caller record) expected)) fun answer => answer
      intro answer w' shared
      cases answer with
      | error e => exact shared.lost _
      | ok outcome =>
        exact shared.read (read_or_failed (reads_put readsBack record expected outcome))
    | deleteAs key expected author =>
      apply GrpcMeets.authenticated
      intro caller known
      have same : daemon.caller token = caller := by simp [Daemon.caller, known]
      rw [same]
      apply GrpcMeets.checked
      apply GrpcMeets.one (.store (.deleteAs key expected (caller.deleteAuthor author)))
        fun answer => answer
      intro answer w' shared
      cases answer with
      | error e => exact shared.lost _
      | ok outcome =>
        exact shared.read (read_or_failed (reads_deleteAs readsBack key expected author outcome))
    | putRaw record expected =>
      apply GrpcMeets.administered
      apply GrpcMeets.one (.store (.putRaw record expected)) fun answer => answer
      intro answer w' shared
      cases answer with
      | error e => exact shared.lost _
      | ok outcome =>
        exact shared.read (read_or_failed (reads_putRaw readsBack record expected outcome))
    | purge key expected =>
      apply GrpcMeets.administered
      apply GrpcMeets.answering
      apply (wp_servicePurge w key expected).mono
      intro w' result served
      cases result with
      | error e => exact served.lost _
      | ok outcome =>
        exact served.read (read_or_failed (reads_purge readsBack key expected outcome))
    | _ => exact absurd trivial forwarded
  | _ => exact absurd trivial forwarded

end Grpc

/-! ## A remote store -/

section Store

variable [CodeGraph] [Wire] [Blake3] [Lowercase] [DebugFmt] [Serde] [HttpBodies] [GrpcMessages]
  {always : Prop} {daemon : Daemon} {token : Option String} {transport : Transport}

omit [Wire] [Lowercase] [DebugFmt] [Serde] [HttpBodies] [GrpcMessages] in
/-- No call is a probe. -/
theorem not_isProbe (req : BackendReq) : ¬ Http.isProbe (Client.httpRequest req) = true := by
  cases req with
  | store req => cases req <;> simp [Client.httpRequest, Http.isProbe]
  | _ => simp [Client.httpRequest, Http.isProbe]

omit [GrpcMessages] in
theorem httpMeets_handle (readsBack : Wire.ReadsBack always) (w : Backend) (req : BackendReq) :
    HttpMeets (daemon.caller token) w req
      (Http.handle daemon token (Client.httpRequest req)) := by
  rw [Http.handle, if_neg (not_isProbe req), Http.authenticated]
  cases known : daemon.auth.authenticate token with
  | none => apply HttpMeets.refused <;> simp [Http.textResponse]
  | some caller =>
    have same : daemon.caller token = caller := by simp [Daemon.caller, known]
    rw [same]
    dsimp only
    split
    · apply HttpMeets.refused <;> simp [Http.textResponse]
    · exact httpMeets_route readsBack daemon caller w req

omit [HttpBodies] in
theorem grpcMeets_handle (readsBack : Wire.ReadsBack always) (w : Backend) (req : BackendReq) :
    GrpcMeets (daemon.caller token) w req
      (Grpc.handle daemon token (Client.grpcRequest req)) := by
  unfold Grpc.handle
  split
  · exact GrpcMeets.fail _
  · exact grpcMeets_rpc readsBack daemon token w req

/-- What the daemon responds to the request of a call, the client reads as an answer to it. -/
theorem wp_respond (readsBack : Wire.ReadsBack always) (w : Backend) (req : BackendReq) :
    Wp (.ofRelation Shared) (fun w' result => ∀ response, result = .ok response →
      ServedFor (daemon.caller token) w req (remoteAnswer req (.ok response)) w') w
      (daemon.respond token (transport.request req)) := by
  cases transport with
  | http =>
    have handled : HttpMeets (daemon.caller token) w req
      (Http.handle daemon token (Client.httpRequest req)) := httpMeets_handle readsBack w req
    apply Wp.bind handled
    · intro w' response served response' same
      cases same
      exact served response rfl
    · intro w' e
      exact e.elim
  | grpc =>
    have handled : GrpcMeets (daemon.caller token) w req
      (Grpc.handle daemon token (Client.grpcRequest req)) := grpcMeets_handle readsBack w req
    have attempted : Wp (.ofRelation Shared)
        (fun w' (ended : Except Empty (Except Status GrpcReply)) => ∀ result, ended = .ok result →
          ServedFor (daemon.caller token) w req (Client.grpcAnswer req result) w') w
        (Grpc.handle daemon token (Client.grpcRequest req)).attempt := by
      apply Wp.attempt
      apply handled.mono
      intro w' result served result' same
      cases same
      exact served
    apply attempted.bind
    · intro w' result served response same
      cases same
      exact served result rfl
    · intro w' e
      exact e.elim

/-- Each call of a remote store, whether it is answered or the connection breaks, is a call of
the daemon's backend. -/
theorem remote_served (readsBack : Wire.ReadsBack always) {w w' : Backend} {req : BackendReq}
    {answer : Except String Response}
    (served : daemon.ServesCarried token w (transport.request req) answer w') :
    ServedFor (daemon.caller token) w req (remoteAnswer req answer) w' := by
  have refuses : ∀ (w : Backend) (req : BackendReq), ∃ answer, Shared w req answer w :=
    fun w req => ⟨req.failed (.backend ""), shared_failed .refl _⟩
  have meets := @wp_respond _ _ _ _ _ _ _ _ _ daemon token transport readsBack w req
  obtain ⟨carried, served⟩ := served
  -- A run that breaks off could have gone on and been answered, and the answer was lost.
  have lost : Program.Cut Shared w (daemon.respond token (Wire.carry (transport.request req))) w' →
      ∀ e, ServedFor (daemon.caller token) w req (req.failed e) w' := by
    intro cut e
    obtain ⟨result, run⟩ := cut.exists_runs refuses
    rw [carried] at run
    cases result with
    | error impossible => exact impossible.elim
    | ok response => exact (meets.runs run response rfl).lost e
  cases served with
  | answered run =>
    rw [carried] at run
    exact meets.runs run _ rfl
  | broken cut e => exact lost cut (.backend e)
  | status cut s grpc =>
    obtain ⟨e, failed⟩ := grpcAnswer_error req s
    change ServedFor (daemon.caller token) w req (Client.grpcAnswer req (.error s)) w'
    rw [failed]
    exact lost cut e

/-- A run of any program over a remote store, through either transport, with connections that
break at any point and others at the backend at any time, is a run of the program at the
backend, up to the authors that the daemon stamps. -/
theorem remote_runs_at_backend (readsBack : Wire.ReadsBack False) {ε α : Type}
    {p : Program backendInterface ε α} {w w' : Backend} {result : Except ε α}
    (run : Program.Runs (daemon.ServesCarried token) w (p.lift (serverStore transport)) w' result) :
    Program.Runs (@ServedFor _ (daemon.caller token)) w p w' result ∧
      (daemon.auth = .disabled → Program.Runs Shared w p w' result) := by
  have ran : Program.Runs (@ServedFor _ (daemon.caller token)) w p w' result :=
    run.of_lift fun w req answer w' served => remote_served readsBack served
  refine ⟨ran, fun disabled => ran.mono fun w req answer w' served => ?_⟩
  have same : daemon.caller token = .open := by simp [Daemon.caller, disabled, Auth.authenticate]
  rw [same] at served
  exact servedFor_open.mp served

end Store

/-! ## A put at a daemon without auth -/

section Sampled

attribute [local instance] sampleBlake3 plainSerde plainDebug plainNames noGraphs
  shortBodies shortMessages

/-- Every request arrives as it is sent, and every body reads back as what it is. -/
@[reducible] def plainWire : Wire where
  carry req := req
  text | .text message => message | _ => ""
  bytes | .blob content => content | _ => []
  record | .record r => .ok r | _ => .error "not a record"
  rawRecord | .rawRecord r => .ok r | _ => .error "not a raw record"
  put | .put outcome => .ok outcome | _ => .error "not an outcome"
  delete | .delete outcome => .ok outcome | _ => .error "not an outcome"
  keys | .keys keys => .ok keys | _ => .error "no keys"
  blobs | .blobs entries => .ok entries | _ => .error "no blobs"
  reply := .ok
  replyLen _ := 0
  tooLong _ := ""
  statusText s := s.message

attribute [local instance] plainWire

theorem plainWire_readsBack (always : Prop) : Wire.ReadsBack always :=
  ⟨fun _ => rfl, fun _ => .inl rfl, fun _ => .inl rfl, fun _ => .inl rfl, fun _ => .inl rfl,
    fun _ => .inl rfl, fun _ => .inl rfl, fun _ => .inl rfl⟩

def openDaemon : Daemon := ⟨.disabled, fun _ _ => none, 1024⟩

def bareBackend : Backend := ⟨.empty 32 cap32_pos, ∅, []⟩

def adasTopic : Record :=
  .create rustKey .topic (.inline (asBytes "v0")) (.new (.new "ada") "example")

/-- An edit of the topic by another client of the backend. -/
def bobsEdit : BackendReq :=
  .store (.put (adasTopic.update (.inline (asBytes "v1")) (.new (.new "bob") "example"))
    (some adasTopic.revision))

/-- A put of the topic, and a read of it, whatever became of the put. -/
def putThenGet : BackendProgram (Except CoreError PutResult × Except CoreError (Option Record)) := do
  let put ← callBackend (.store (.put adasTopic none))
  let got ← callBackend (.store (.get rustKey))
  return (put, got)

/-- The daemon has served the whole put. -/
def landedPut : Backend :=
  ((openDaemon.respond none (Transport.http.request (.store (.put adasTopic none)))).exec
    (fun w (req : backendInterface.Req) => w.reply 0 req) bareBackend).1

/-- The edit lands, and then a call is answered. -/
def afterEdit (w : Backend) (req : backendInterface.Req) : Backend × backendInterface.Ans req :=
  (w.reply 0 bobsEdit).1.reply 0 req

/-- The daemon serves the read. -/
def servedGet : Backend × Except Empty Response :=
  (openDaemon.respond none (Transport.http.request (.store (.get rustKey)))).exec afterEdit landedPut

theorem landedPut_cut : Program.Cut Shared bareBackend
    (openDaemon.respond none (Transport.http.request (.store (.put adasTopic none)))) landedPut := by
  have ran := Program.runs_exec (fun w (req : backendInterface.Req) => w.reply 0 req) bareBackend
    (openDaemon.respond none (Transport.http.request (.store (.put adasTopic none))))
  refine (ran.mono fun w req answer w' served => ?_).cut
  obtain ⟨rfl, rfl⟩ := served
  exact Amid.of_served (Backend.served_of_reply 0 w req)

theorem servedGet_runs : Program.Runs Shared landedPut
    (openDaemon.respond none (Transport.http.request (.store (.get rustKey)))) servedGet.1
    servedGet.2 := by
  have ran := Program.runs_exec afterEdit landedPut
    (openDaemon.respond none (Transport.http.request (.store (.get rustKey))))
  refine ran.mono fun w req answer w' served => ?_
  obtain ⟨rfl, rfl⟩ := served
  have edited : Moves w (w.reply 0 bobsEdit).1 := ⟨bobsEdit, _, Backend.served_of_reply 0 w bobsEdit⟩
  exact Amid.before (.single edited) (Amid.of_served (Backend.served_of_reply 0 _ req))

/-- The connection breaks once the put has landed, another client edits the topic, and the
read answers the edit: the program ran at the backend, where its put is answered as lost. -/
theorem putThenGet_runs : ∃ (w : Backend) (e : CoreError) (r : Record),
    r.body = .inline (asBytes "v1") ∧
    Program.Runs (openDaemon.ServesCarried none) bareBackend
      (putThenGet.lift (serverStore .http)) w (.ok (.error e, .ok (some r))) ∧
    Program.Runs Shared bareBackend putThenGet w (.ok (.error e, .ok (some r))) := by
  have answered : ∃ response r, servedGet.2 = .ok response ∧
      remoteAnswer (.store (.get rustKey)) (.ok response) = .ok (some r) ∧
      r.body = .inline (asBytes "v1") := ⟨_, _, rfl, rfl, rfl⟩
  obtain ⟨response, r, ended, got, body⟩ := answered
  have read := servedGet_runs
  rw [ended] at read
  have run : Program.Runs (openDaemon.ServesCarried none) bareBackend
      (putThenGet.lift (serverStore .http)) servedGet.1
      (.ok (remoteAnswer (.store (.put adasTopic none)) (.error "connection reset"),
        remoteAnswer (.store (.get rustKey)) (.ok response))) :=
    .ask ⟨rfl, .broken landedPut_cut "connection reset"⟩ (.ask ⟨rfl, .answered read⟩ (.done _ _))
  rw [got] at run
  exact ⟨_, _, r, body, run, (remote_runs_at_backend (plainWire_readsBack False) run).2 rfl⟩

end Sampled

end Gonzalo.Server
