import Gonzalo.Server.Remote

/-!
# A remote store that nobody disturbs

With a token of an admin, or a daemon without auth, a `ServerStore` is no different from the
store behind the daemon: as long as the connection holds, nobody else calls and every call
would succeed there, a program over the remote store goes through the same backends and ends
with the same result.
-/

set_option autoImplicit false

namespace Gonzalo.Server
open Gonzalo.Core Gonzalo.Lib
open Gonzalo.Tickets (Lowercase plainNames)

section Relayed

variable [Blake3] {nowMs : Int} {w : Backend} {req : BackendReq} {principal : Principal}

/-- The answers of a backend that does not fail. -/
abbrev replies (nowMs : Int) (w : Backend) (req : backendInterface.Req) :
    Backend × backendInterface.Ans req := w.reply nowMs req

/-- The author is the one that the daemon stamps anyway. -/
def Unstamped (principal : Principal) : BackendReq → Prop
  | .store (.put record _) => Http.stamped principal record = record
  | .store (.deleteAs _ _ author) => principal.deleteAuthor author = author
  | _ => True

/-- The call does not purge a live record, which the daemon refuses. -/
def NotLive (w : Backend) : BackendReq → Prop
  | .store (.purge key expected) => Authorised expected (w.store.getRaw key)
  | _ => True

/-- The call succeeds at the backend, and the daemon does not change it. -/
structure Succeeds (principal : Principal) (nowMs : Int) (w : Backend) (req : BackendReq) :
    Prop where
  unstamped : Unstamped principal req
  notLive : NotLive w req
  succeeds : ∀ e, (w.reply nowMs req).2 ≠ req.failed e

omit [Blake3] in
theorem ReadsAnswer.read {answer seen : req.Ans} (reads : ReadsAnswer True answer seen) :
    seen = answer := by
  rcases reads with same | failed
  · exact same
  · exact absurd trivial failed.1

theorem answered_reply (nowMs : Int) (w : Backend) (req : BackendReq) :
    Answered req (w.reply nowMs req).2 :=
  ⟨w, (w.reply nowMs req).1, Backend.served_of_reply nowMs w req⟩

/-- The service's purge of what is not live is that of the backend. -/
theorem exec_servicePurge {key : RecordKey} {expected : Revision}
    (notLive : Authorised expected (w.store.getRaw key)) :
    (Service.purge key expected).exec (replies nowMs) w =
      ((w.reply nowMs (.store (.purge key expected))).1,
        (w.reply nowMs (.store (.purge key expected))).2) := by
  have removed : (((StoreProgram.purge key expected).lift storePart :
      BackendProgram DeleteResult)).exec (replies nowMs) w =
      ((w.reply nowMs (.store (.purge key expected))).1,
        (w.reply nowMs (.store (.purge key expected))).2) := by
    change Program.exec _ (w.reply nowMs (.store (.purge key expected))).1
      (Program.lift storePart (.ofExcept (w.store.purge key expected).2)) = _
    cases ended : (w.store.purge key expected).2 with
    | error e => exact Prod.ext rfl ended.symm
    | ok outcome => exact Prod.ext rfl ended.symm
  change Program.exec _ w (Program.lift storePart
    (Program.ofExcept (Except.ok (w.store.getRaw key)) >>= _)) = _
  cases found : w.store.getRaw key with
  | none => exact removed
  | some current =>
    change Program.exec _ w (Program.lift storePart
      (if !current.isTombstone && current.revision = expected then
        .fail (liveRefusal key current)
      else StoreProgram.purge key expected)) = _
    rw [if_neg]
    · exact removed
    · intro live
      simp only [Bool.and_eq_true, Bool.not_eq_true', decide_eq_true_eq] at live
      exact notLive current found live.1 live.2

end Relayed

/-! ## Over HTTP -/

section Http

variable [CodeGraph] [Wire] [Blake3] {nowMs : Int} {w : Backend} {req : BackendReq}
  {principal : Principal}

/-- The handler leaves the backend as the call does, and the client reads its answer. -/
def HttpRelays (nowMs : Int) (w : Backend) (req : BackendReq)
    (handler : ServiceProgram Empty HttpResponse) : Prop :=
  ∃ response, handler.exec (replies nowMs) w = ((w.reply nowMs req).1, .ok response) ∧
    Client.httpAnswer req response = (w.reply nowMs req).2

namespace HttpRelays

theorem answering {α : Type} {call : BackendProgram α} {respond : Except CoreError α → HttpResponse}
    {result : Except CoreError α}
    (ran : call.exec (replies nowMs) w = ((w.reply nowMs req).1, result))
    (reads : Client.httpAnswer req (respond result) = (w.reply nowMs req).2) :
    HttpRelays nowMs w req (Http.answering call respond) := by
  refine ⟨respond result, ?_, reads⟩
  change Program.exec _ w (call.attempt >>= _) = _
  rw [Program.exec_bind, Program.exec_attempt, ran]
  rfl

theorem authorized [DebugFmt] {handler : ServiceProgram Empty HttpResponse} {access : Access}
    {ns : String} (admin : principal.isAdmin = true) (relays : HttpRelays nowMs w req handler) :
    HttpRelays nowMs w req (Http.authorized principal access ns handler) := by
  rw [Http.authorized, Principal.allows_of_isAdmin admin]
  exact relays

end HttpRelays

omit [CodeGraph] [Wire] in
/-- A call whose answer is propagated. -/
theorem exec_call {α : Type} (call : BackendReq) (f : call.Ans → Except CoreError α) :
    (callBackend call >>= fun answer => .ofExcept (f answer) : BackendProgram α).exec
      (replies nowMs) w = ((w.reply nowMs call).1, f (w.reply nowMs call).2) := by
  change Program.exec _ _ (Program.ofExcept (f (w.reply nowMs call).2)) = _
  cases f (w.reply nowMs call).2 with
  | error e => rfl
  | ok value => rfl

theorem HttpForwards.relays [DebugFmt] {handler : ServiceProgram Empty HttpResponse}
    (forwards : HttpForwards True principal req handler) (admin : principal.isAdmin = true)
    (succeeds : ∀ e, (w.reply nowMs req).2 ≠ req.failed e) : HttpRelays nowMs w req handler := by
  obtain ⟨α, f, respond, access, ns, rfl, failed, reads⟩ := forwards
  apply HttpRelays.authorized admin
  apply HttpRelays.answering (exec_call req f)
  cases ended : f (w.reply nowMs req).2 with
  | error e => exact absurd (failed _ e ended) (succeeds e)
  | ok value => exact (reads _ value (answered_reply nowMs w req) ended).read

/-- The route of a call that succeeds relays it. -/
theorem httpRelays_route [Lowercase] [DebugFmt] [Serde] (readsBack : Wire.ReadsBack True)
    (daemon : Daemon) (admin : principal.isAdmin = true) (passes : Succeeds principal nowMs w req) :
    HttpRelays nowMs w req (Http.route daemon principal (Client.httpRequest req)) := by
  by_cases forwarded : Forwarded req
  · exact (httpForwards_route readsBack daemon principal forwarded).relays admin passes.succeeds
  cases req with
  | store req =>
    cases req with
    | put record expected =>
      change HttpRelays nowMs w _ (Http.putRecord principal record.key ⟨record, expected⟩)
      rw [Http.putRecord, pathKeyMismatch_self]
      apply HttpRelays.authorized admin
      have same : Http.stamped principal record = record := passes.unstamped
      rw [same]
      apply HttpRelays.answering (exec_call (.store (.put record expected)) fun answer => answer)
      cases ended : (w.reply nowMs (.store (.put record expected))).2 with
      | error e => exact absurd ended (passes.succeeds e)
      | ok outcome => exact (Client.classifyPutResponseFor_outcome readsBack record.key outcome).eq_ok
    | deleteAs key expected author =>
      have same : principal.deleteAuthor author = author := passes.unstamped
      change HttpRelays nowMs w _ (Http.deleteRecord principal key (some ⟨expected, author⟩))
      rw [Http.deleteRecord]
      apply HttpRelays.authorized admin
      change HttpRelays nowMs w _ (Http.answering
        (Service.deleteAs key expected (principal.deleteAuthor author)) _)
      rw [same]
      apply HttpRelays.answering
        (exec_call (.store (.deleteAs key expected author)) fun answer => answer)
      cases ended : (w.reply nowMs (.store (.deleteAs key expected author))).2 with
      | error e => exact absurd ended (passes.succeeds e)
      | ok outcome => exact (Client.classifyDeleteResponse_outcome readsBack outcome).eq_ok
    | putRaw record expected =>
      change HttpRelays nowMs w _ (Http.putRawRecord principal record.key ⟨record, expected⟩)
      rw [Http.putRawRecord, pathKeyMismatch_self, admin]
      apply HttpRelays.answering (exec_call (.store (.putRaw record expected)) fun answer => answer)
      cases ended : (w.reply nowMs (.store (.putRaw record expected))).2 with
      | error e => exact absurd ended (passes.succeeds e)
      | ok outcome => exact (Client.classifyRawPutResponse_outcome readsBack record.key outcome).eq_ok
    | purge key expected =>
      change HttpRelays nowMs w _ (Http.purgeRecord principal key (.ok expected))
      rw [Http.purgeRecord, admin]
      apply HttpRelays.answering (exec_servicePurge passes.notLive)
      cases ended : (w.reply nowMs (.store (.purge key expected))).2 with
      | error e => exact absurd ended (passes.succeeds e)
      | ok outcome => exact (Client.classifyPurgeResponse_outcome readsBack outcome).eq_ok
    | _ => exact absurd trivial forwarded
  | _ => exact absurd trivial forwarded

end Http

/-! ## Over gRPC -/

section Admitted

variable [DebugFmt] {auth : Auth} {token : Option String} {principal : Principal}

omit [DebugFmt] in
theorem authenticate_known (known : auth.authenticate token = some principal) :
    Grpc.authenticate auth token = return principal := by
  rw [Grpc.authenticate, known]

theorem checkAccess_admin (admin : principal.isAdmin = true) (access : Access) (ns : String) :
    Grpc.checkAccess principal access ns = return () := by
  rw [Grpc.checkAccess, if_pos (Principal.allows_of_isAdmin admin access ns)]

theorem authorize_admin (known : auth.authenticate token = some principal)
    (admin : principal.isAdmin = true) (access : Access) (ns : String) :
    Grpc.authorize auth token access ns = return principal := by
  rw [Grpc.authorize, authenticate_known known]
  change (Grpc.checkAccess principal access ns >>= fun _ => return principal) = _
  rw [checkAccess_admin admin]
  rfl

theorem authorizeAdmin_admin (known : auth.authenticate token = some principal)
    (admin : principal.isAdmin = true) (operation : String) :
    Grpc.authorizeAdmin auth token operation = return principal := by
  rw [Grpc.authorizeAdmin, authenticate_known known]
  change (if principal.isAdmin then _ else _) = _
  rw [if_pos admin]

end Admitted

section Grpc

variable [CodeGraph] [Wire] [Blake3] {nowMs : Int} {w : Backend} {req : BackendReq}
  {principal : Principal} {auth : Auth} {token : Option String}

/-- The RPC leaves the backend as the call does, and the client reads its answer unless the
reply is too long. -/
def GrpcRelays (nowMs : Int) (w : Backend) (req : BackendReq) (rpc : Grpc.Rpc GrpcReply) : Prop :=
  ∃ sent, rpc.exec (replies nowMs) w = ((w.reply nowMs req).1, .ok sent) ∧
    (Client.Fits sent → Client.grpcAnswer req (.ok sent) = (w.reply nowMs req).2)

/-- An RPC that makes a call of the service that succeeds. -/
theorem GrpcRelays.calling {α : Type} {call : BackendProgram α} {failure : CoreError → Status}
    {respond : α → GrpcReply} {value : α}
    (ran : call.exec (replies nowMs) w = ((w.reply nowMs req).1, .ok value))
    (reads : Client.Fits (respond value) →
      Client.grpcAnswer req (.ok (respond value)) = (w.reply nowMs req).2) :
    GrpcRelays nowMs w req (Grpc.calling call failure >>= fun value => return respond value) := by
  refine ⟨respond value, ?_, reads⟩
  rw [Grpc.calling, Program.exec_bind, Program.exec_mapError, ran]
  rfl

/-- An RPC that makes the client's own call, which succeeds. -/
theorem GrpcRelays.one {α : Type} (req : BackendReq) (f : req.Ans → Except CoreError α)
    {failure : CoreError → Status} {respond : α → GrpcReply}
    (succeeds : ∀ e, f (w.reply nowMs req).2 ≠ .error e)
    (reads : ∀ value, f (w.reply nowMs req).2 = .ok value → Client.Fits (respond value) →
      Client.grpcAnswer req (.ok (respond value)) = (w.reply nowMs req).2) :
    GrpcRelays nowMs w req
      (Grpc.calling (callBackend req >>= fun answer => .ofExcept (f answer)) failure >>=
        fun value => return respond value) := by
  have ran : (callBackend req >>= fun answer => .ofExcept (f answer) : BackendProgram α).exec
      (replies nowMs) w = ((w.reply nowMs req).1, f (w.reply nowMs req).2) := exec_call req f
  cases ended : f (w.reply nowMs req).2 with
  | error e => exact absurd ended (succeeds e)
  | ok value =>
    rw [ended] at ran
    exact GrpcRelays.calling ran (reads value ended)

theorem GrpcForwards.relays [DebugFmt] {rpc : Grpc.Rpc GrpcReply}
    (forwards : GrpcForwards True auth token req rpc) (known : auth.authenticate token = some principal)
    (admin : principal.isAdmin = true) (succeeds : ∀ e, (w.reply nowMs req).2 ≠ req.failed e) :
    GrpcRelays nowMs w req rpc := by
  obtain ⟨α, f, failure, respond, access, ns, rfl, failed, reads⟩ := forwards
  rw [authorize_admin known admin]
  exact GrpcRelays.one req f (fun e ended => succeeds e (failed _ e ended))
    fun value ended fits => (reads _ value ended fits).read

/-- The RPC of a call that succeeds relays it. -/
theorem grpcRelays_rpc [Lowercase] [DebugFmt] [Serde] (readsBack : Wire.ReadsBack True)
    (daemon : Daemon) (known : daemon.auth.authenticate token = some principal)
    (admin : principal.isAdmin = true) (passes : Succeeds principal nowMs w req) :
    GrpcRelays nowMs w req (Grpc.rpc daemon token (Client.grpcRequest req)) := by
  by_cases forwarded : Forwarded req
  · exact (grpcForwards_rpc readsBack daemon token forwarded).relays known admin passes.succeeds
  cases req with
  | store req =>
    cases req with
    | put record expected =>
      have same : Http.stamped principal record = record := passes.unstamped
      change GrpcRelays nowMs w _ (Grpc.put daemon.auth token (.ok record) (.ok expected))
      rw [Grpc.put, authenticate_known known]
      change GrpcRelays nowMs w _ (Grpc.checkAccess principal .write record.key.ns >>= fun _ =>
        Grpc.calling (Service.put (Http.stamped principal record) expected) Grpc.putError >>=
          fun outcome => return .put outcome)
      rw [checkAccess_admin admin, same]
      apply GrpcRelays.one (.store (.put record expected)) (fun answer => answer) passes.succeeds
      intro outcome ended fits
      rw [show (w.reply nowMs (.store (.put record expected))).2 = .ok outcome from ended]
      exact (reads_put readsBack record expected outcome fits).eq_ok
    | deleteAs key expected author =>
      have same : principal.deleteAuthor author = author := passes.unstamped
      change GrpcRelays nowMs w _
        (Grpc.delete daemon.auth token key (.ok expected) (.ok author))
      rw [Grpc.delete, authenticate_known known]
      change GrpcRelays nowMs w _ (Grpc.checkAccess principal .write key.ns >>= fun _ =>
        Grpc.calling (Service.deleteAs key expected (principal.deleteAuthor author))
          (fun _ => Grpc.internal) >>= fun outcome => return .delete outcome)
      rw [checkAccess_admin admin, same]
      apply GrpcRelays.one (.store (.deleteAs key expected author)) (fun answer => answer)
        passes.succeeds
      intro outcome ended fits
      rw [show (w.reply nowMs (.store (.deleteAs key expected author))).2 = .ok outcome from ended]
      exact (reads_deleteAs readsBack key expected author outcome fits).eq_ok
    | putRaw record expected =>
      change GrpcRelays nowMs w _ (Grpc.putRaw daemon.auth token (.ok record) (.ok expected))
      rw [Grpc.putRaw, authorizeAdmin_admin known admin]
      apply GrpcRelays.one (.store (.putRaw record expected)) (fun answer => answer) passes.succeeds
      intro outcome ended fits
      rw [show (w.reply nowMs (.store (.putRaw record expected))).2 = .ok outcome from ended]
      exact (reads_putRaw readsBack record expected outcome fits).eq_ok
    | purge key expected =>
      change GrpcRelays nowMs w _ (Grpc.purge daemon.auth token key (.ok expected))
      rw [Grpc.purge, authorizeAdmin_admin known admin]
      have ran : (Service.purge key expected).exec (replies nowMs) w =
        ((w.reply nowMs (.store (.purge key expected))).1,
          (w.reply nowMs (.store (.purge key expected))).2) := exec_servicePurge passes.notLive
      cases ended : (w.reply nowMs (.store (.purge key expected))).2 with
      | error e => exact absurd ended (passes.succeeds e)
      | ok outcome =>
        rw [ended] at ran
        apply GrpcRelays.calling ran
        rw [ended]
        exact fun fits => (reads_purge readsBack key expected outcome fits).eq_ok
    | _ => exact absurd trivial forwarded
  | _ => exact absurd trivial forwarded

end Grpc

/-! ## Whole programs -/

section Programs

variable [CodeGraph] [Wire] [Blake3] [Lowercase] [DebugFmt] [Serde] [HttpBodies] [GrpcMessages]
  {daemon : Daemon} {token : Option String} {transport : Transport} {principal : Principal}
  {nowMs : Int} {w : Backend} {req : BackendReq}

/-- The daemon takes requests of this size. -/
def Daemon.Admits (daemon : Daemon) : Request → Prop
  | .http req => ∀ limit ∈ Http.bodyLimit daemon req, HttpBodies.len req ≤ limit
  | .grpc req => GrpcMessages.len req ≤ daemon.maxBlobSize

/-- What a daemon answers over a connection that holds. -/
def Daemon.replies (daemon : Daemon) (token : Option String) (nowMs : Int) (w : Backend)
    (req : wireInterface.Req) : Backend × wireInterface.Ans req :=
  let ended := (daemon.respond token (Wire.carry req)).exec (Server.replies nowMs) w
  (ended.1, ended.2.mapError Empty.elim)

/-- The call succeeds at the backend, its request arrives unchanged, and neither the request
nor, over gRPC, the reply is too long. -/
structure Passes (daemon : Daemon) (token : Option String) (transport : Transport)
    (principal : Principal) (nowMs : Int) (w : Backend) (req : BackendReq) : Prop
    extends Succeeds principal nowMs w req where
  carried : Wire.carry (transport.request req) = transport.request req
  admitted : daemon.Admits (transport.request req)
  fits : ∀ sent, (daemon.replies token nowMs w (transport.request req)).2 =
    .ok (.grpc (.ok sent)) → Client.Fits sent

/-- Such a call goes through the daemon as if made at the backend. -/
theorem remote_reply (readsBack : Wire.ReadsBack True)
    (known : daemon.auth.authenticate token = some principal) (admin : principal.isAdmin = true)
    (passes : Passes daemon token transport principal nowMs w req) :
    (daemon.replies token nowMs w (transport.request req)).1 = (w.reply nowMs req).1 ∧
      remoteAnswer req (daemon.replies token nowMs w (transport.request req)).2 =
        (w.reply nowMs req).2 := by
  have admitted := passes.admitted
  have fits := passes.fits
  change ∀ sent, Except.mapError Empty.elim ((daemon.respond token
    (Wire.carry (transport.request req))).exec (replies nowMs) w).2 = .ok (.grpc (.ok sent)) →
      Client.Fits sent at fits
  rw [passes.carried] at fits
  change ((daemon.respond token (Wire.carry (transport.request req))).exec (replies nowMs) w).1 = _ ∧
    remoteAnswer req (Except.mapError Empty.elim
      ((daemon.respond token (Wire.carry (transport.request req))).exec (replies nowMs) w).2) = _
  rw [passes.carried]
  cases transport with
  | http =>
    obtain ⟨response, ran, reads⟩ := httpRelays_route readsBack daemon admin passes.toSucceeds
    have handled : Http.handle daemon token (Client.httpRequest req) =
        (Http.route daemon principal (Client.httpRequest req) :
          ServiceProgram Empty HttpResponse) := by
      rw [Http.handle, if_neg (not_isProbe req), Http.authenticated, known]
      apply if_neg
      cases own : Http.bodyLimit daemon (Client.httpRequest req) with
      | none => simp
      | some limit =>
        have short : HttpBodies.len (Client.httpRequest req) ≤ limit := admitted limit own
        simp only [Option.any_some, decide_eq_true_eq]
        omega
    have responded : (daemon.respond token (.http (Client.httpRequest req))).exec (replies nowMs) w =
        ((w.reply nowMs req).1, .ok (.http response)) := by
      rw [Daemon.respond, Program.exec_bind, handled, ran]
      rfl
    change ((daemon.respond token (.http (Client.httpRequest req))).exec (replies nowMs) w).1 = _ ∧
      remoteAnswer req (Except.mapError Empty.elim
        ((daemon.respond token (.http (Client.httpRequest req))).exec (replies nowMs) w).2) = _
    rw [responded]
    exact ⟨rfl, reads⟩
  | grpc =>
    obtain ⟨sent, ran, reads⟩ := grpcRelays_rpc readsBack daemon known admin passes.toSucceeds
    have handled : Grpc.handle daemon token (Client.grpcRequest req) =
        Grpc.rpc daemon token (Client.grpcRequest req) := if_neg (Nat.not_lt.mpr admitted)
    have responded : (daemon.respond token (.grpc (Client.grpcRequest req))).exec (replies nowMs) w =
        ((w.reply nowMs req).1, .ok (.grpc (.ok sent))) := by
      rw [Daemon.respond, Program.exec_bind, Program.exec_attempt, handled, ran]
      rfl
    change ((daemon.respond token (.grpc (Client.grpcRequest req))).exec (replies nowMs) w).1 = _ ∧
      remoteAnswer req (Except.mapError Empty.elim
        ((daemon.respond token (.grpc (Client.grpcRequest req))).exec (replies nowMs) w).2) = _
    have short : Client.Fits sent := by
      apply fits
      change Except.mapError Empty.elim
        ((daemon.respond token (.grpc (Client.grpcRequest req))).exec (replies nowMs) w).2 = _
      rw [responded]
      rfl
    rw [responded]
    exact ⟨rfl, reads short⟩

/-- Every call of the program's run at the backend is one that passes. -/
def AllPass {ε α : Type} (daemon : Daemon) (token : Option String) (transport : Transport)
    (principal : Principal) (clock : Nat → Int) (w : Backend) (p : Program backendInterface ε α) :
    Prop :=
  Wp ⟨fun x req => Passes daemon token transport principal (clock x.2) x.1 req,
      fun x req answer x' => answer = (ticking clock replies x req).2 ∧
        x' = (ticking clock replies x req).1⟩ (fun _ _ => True) (w, 0) p

/-- A program whose calls all succeed at the backend ends, over a remote store of an admin, with
the same result and leaves the same backend, through either transport. -/
theorem remote_store_is_transparent (readsBack : Wire.ReadsBack True)
    (known : daemon.auth.authenticate token = some principal) (admin : principal.isAdmin = true)
    {ε α : Type} {p : Program backendInterface ε α} {clock : Nat → Int}
    (all : AllPass daemon token transport principal clock w p) :
    (p.lift (serverStore transport)).exec (ticking clock (daemon.replies token)) (w, 0) =
      p.exec (ticking clock replies) (w, 0) := by
  apply Program.exec_lift _ all
  intro x req passes
  obtain ⟨backend, answer⟩ := remote_reply readsBack known admin passes
  exact ⟨Prod.ext backend rfl, answer⟩

end Programs

section Sampled

attribute [local instance] sampleBlake3 plainSerde plainDebug plainNames noGraphs
  shortBodies shortMessages
  plainWire

/-- A put of the topic and a read of it, over gRPC. -/
theorem putThenGet_transparent :
    (putThenGet.lift (serverStore .grpc)).exec
        (ticking Int.ofNat (openDaemon.replies none)) (bareBackend, 0) =
      putThenGet.exec (ticking Int.ofNat replies) (bareBackend, 0) := by
  have committed : (bareBackend.reply 0 (.store (.put adasTopic none))).2 = .ok (.committed _) :=
    congrArg Prod.snd (MemStore.put_create_commits (s := bareBackend.store) rfl (by decide) 0 _ _)
  refine remote_store_is_transparent (plainWire_readsBack True) rfl rfl ⟨?_, ?_⟩
  · refine ⟨⟨rfl, trivial, fun e failed => ?_⟩, rfl, Nat.zero_le _, fun _ _ => Nat.zero_le _⟩
    cases committed.symm.trans failed
  · rintro answer x' ⟨rfl, rfl⟩
    refine ⟨⟨⟨trivial, trivial, fun e failed => ?_⟩, rfl, Nat.zero_le _, fun _ _ => Nat.zero_le _⟩,
      fun _ _ _ => trivial⟩
    cases failed

end Sampled

end Gonzalo.Server
