import Gonzalo.Server.Unseen

/-!
# Confinement to namespaces

What the requests of one principal can change: each handler issues a writing call only for
a namespace that the principal may write, and a conflict is answered only to such a call.
With the two runs of `Unseen` this confines a principal to its namespaces.
-/

set_option autoImplicit false

/-! ## What a call may change -/

namespace Gonzalo.Core
open Gonzalo.Lib

/-- The key whose record the call may change. -/
def StoreReq.changes : StoreReq → Option RecordKey
  | .put record _ | .putRaw record _ => some record.key
  | .deleteAs key _ _ | .purge key _ => some key
  | _ => none

section Plans
variable [Blake3] {current : Option Record} {record : Record} {expected : Option Revision}
  {nowMs : Int} {cap : Nat} {c : Conflict}

theorem planPut_conflict (plan : planPut current record expected nowMs cap = .conflict c) :
    current = some c.current := by
  unfold planPut at plan
  split at plan
  · cases plan
  · cases current with
    | none =>
      dsimp only at plan
      split at plan <;> cases plan
    | some stored =>
      dsimp only at plan
      split at plan
      · cases expected with
        | none =>
          dsimp only at plan
          split at plan <;> cases plan
        | some revision => cases plan
      · split at plan
        · cases plan
        · cases plan
          rfl

omit [Blake3] in
theorem planPutRaw_conflict (plan : planPutRaw current record expected nowMs cap = .conflict c) :
    current = some c.current := by
  cases current with
  | none => cases expected <;> cases plan
  | some stored =>
    simp only [planPutRaw] at plan
    split at plan
    · cases plan
    · cases plan
      rfl

theorem planDelete_conflict {author : Option Identity}
    (plan : planDelete current expected nowMs cap author = .conflict c) :
    current = some c.current := by
  cases current with
  | none => cases plan
  | some stored =>
    simp only [planDelete] at plan
    split at plan
    · cases plan
    · split at plan
      · cases plan
      · cases plan
        rfl

omit [Blake3] in
theorem planPurge_conflict {named : Revision} (plan : planPurge current named = .conflict c) :
    current = some c.current := by
  cases current with
  | none => cases plan
  | some stored =>
    simp only [planPurge] at plan
    split at plan
    · cases plan
    · cases plan
      rfl

end Plans

namespace MemStore
variable [Blake3] {s : MemStore} {nowMs : Int} {key : RecordKey} {c : Conflict}

/-- A call leaves the records under other keys alone. -/
theorem getRaw_serve_of_ne {req : StoreReq} (elsewhere : req.changes ≠ some key) :
    (s.serve nowMs req).1.getRaw key = s.getRaw key := by
  cases req with
  | put record expected =>
    rcases s.put_effect nowMs record expected with ⟨w, planned, done⟩ | ⟨same, -⟩
    · have own : w.key = record.key := by
        obtain ⟨-, ⟨-, -, rfl⟩ | ⟨t, -, -, -, -, rfl⟩ | ⟨c, -, -, -, rfl⟩⟩ :=
          planPut_write planned <;> rfl
      rw [serve, done, getRaw_insert, if_neg]
      intro here
      exact elsewhere (congrArg some (own.symm.trans here))
    · rw [serve, same]
  | putRaw record expected =>
    rcases s.putRaw_effect nowMs record expected with ⟨-, done⟩ | ⟨same, -⟩
    · rw [serve, done, getRaw_insert, if_neg]
      intro here
      exact elsewhere (congrArg some here)
    · rw [serve, same]
  | deleteAs key' expected author =>
    rcases s.deleteAs_effect nowMs key' expected author with ⟨c, stored, -, -, done⟩ | same
    · have own : c.key = key' := key_of_getRaw stored
      rw [serve, done, getRaw_insert, tombstoneOf_key, if_neg]
      intro here
      exact elsewhere (congrArg some (own.symm.trans here))
    · rw [serve, same]
  | purge key' expected =>
    rcases s.purge_effect key' expected with ⟨c, -, -, done⟩ | same
    · rw [serve, done, getRaw_erase, if_neg]
      intro here
      exact elsewhere (congrArg some here)
    · rw [serve, same]
  | _ => rfl

omit [Blake3] in
theorem write_conflict {record : Record} {expected : Option Revision} {plan : PutPlanner}
    (answered : (s.write nowMs record expected plan).2 = .ok (.conflict c)) :
    plan (s.getRaw record.key) record expected nowMs s.cap = .conflict c := by
  unfold write at answered
  split at answered
  next w planned => cases answered
  next c' planned =>
    cases answered
    exact planned
  all_goals cases answered

theorem put_conflict {record : Record} {expected : Option Revision}
    (answered : (s.put nowMs record expected).2 = .ok (.conflict c)) :
    c.current.key = record.key := key_of_getRaw (planPut_conflict (write_conflict answered))

omit [Blake3] in
theorem putRaw_conflict {record : Record} {expected : Option Revision}
    (answered : (s.putRaw nowMs record expected).2 = .ok (.conflict c)) :
    c.current.key = record.key := key_of_getRaw (planPutRaw_conflict (write_conflict answered))

theorem deleteAs_conflict {expected : Option Revision} {author : Option Identity}
    (answered : (s.deleteAs nowMs key expected author).2 = .ok (.conflict c)) :
    c.current.key = key := by
  unfold deleteAs at answered
  split at answered
  · cases answered
  · cases answered
  next c' planned =>
    cases answered
    exact key_of_getRaw (planDelete_conflict planned)

omit [Blake3] in
theorem purge_conflict {expected : Revision}
    (answered : (s.purge key expected).2 = .ok (.conflict c)) : c.current.key = key := by
  unfold purge at answered
  split at answered
  · cases answered
  · cases answered
  next c' planned =>
    cases answered
    exact key_of_getRaw (planPurge_conflict planned)

end MemStore

end Gonzalo.Core

namespace Gonzalo.Server
open Gonzalo.Core Gonzalo.Lib
open Gonzalo.Tickets (Cursor IngestError IngestProgram IngestSummary Lowercase Page
  SourceError Ticket callPut ingestPages ingestTicket plainNames recordKey upsert)

/-- The call changes no record outside the namespaces that may be written. -/
def Within (writes : String → Bool) : BackendReq → Prop
  | .store req => ∀ key, req.changes = some key → writes key.ns = true
  | _ => True

/-- A conflict is about a record in a namespace that may be written. -/
def PutWithin (writes : String → Bool) : PutResult → Prop
  | .committed _ => True
  | .conflict c => writes c.current.key.ns = true

def DeleteWithin (writes : String → Bool) : DeleteResult → Prop
  | .deleted => True
  | .conflict c => writes c.current.key.ns = true

section Calls
variable [Blake3] {clock : Nat → Int} {writes : String → Bool}

/-- From any state, every call of the program is within `writes`, and a value it ends with
meets `V`. -/
def Stays (clock : Nat → Int) (writes : String → Bool) {ε α : Type} (V : α → Prop)
    (p : ServiceProgram ε α) : Prop :=
  ∀ s, Wp (.ofServer (Serving.answer clock) (Within writes))
    (fun _ result => ∀ value, result = .ok value → V value) s p

namespace Stays
variable {ε ε' α β σ τ : Type} {V : α → Prop} {U : β → Prop}

theorem done {value : α} (holds : V value) :
    Stays clock writes V (.done value : ServiceProgram ε α) := by
  intro s value' same
  cases same
  exact holds

theorem fail {e : ε} : Stays clock writes V (.fail e : ServiceProgram ε α) := by
  intro s value impossible
  cases impossible

theorem ofExcept {result : Except ε α} (holds : ∀ value, result = .ok value → V value) :
    Stays clock writes V (.ofExcept result : ServiceProgram ε α) := by
  cases result with
  | ok value => exact done (holds value rfl)
  | error e => exact fail

theorem bind {p : ServiceProgram ε α} {f : α → ServiceProgram ε β}
    (first : Stays clock writes V p) (second : ∀ value, V value → Stays clock writes U (f value)) :
    Stays clock writes U (p >>= f) := by
  intro s
  apply (first s).bind
  · intro s' value held
    exact second value (held value rfl) s'
  · intro s' e _ value impossible
    cases impossible

theorem mono {V' : α → Prop} {p : ServiceProgram ε α} (holds : Stays clock writes V p)
    (weaker : ∀ value, V value → V' value) : Stays clock writes V' p := by
  intro s
  apply (holds s).mono
  intro s' result held value same
  exact weaker value (held value same)

theorem attempt {p : ServiceProgram ε α} (holds : Stays clock writes V p) :
    Stays clock writes (fun result => ∀ value, result = .ok value → V value)
      (p.attempt : ServiceProgram ε' (Except ε α)) := by
  intro s
  apply Wp.attempt
  apply (holds s).mono
  intro s' result held result' same value ended
  cases same
  exact held value ended

theorem mapError {rename : ε → ε'} {p : ServiceProgram ε α} (holds : Stays clock writes V p) :
    Stays clock writes V (p.mapError rename) := by
  intro s
  apply Wp.mapError
  apply (holds s).mono
  intro s' result held value same
  cases result with
  | ok value' =>
    cases same
    exact held _ rfl
  | error e => cases same

theorem foldlM {body : σ → τ → ServiceProgram ε σ}
    (turn : ∀ acc item, Stays clock writes (fun _ => True) (body acc item)) {items : List τ}
    {acc : σ} : Stays clock writes (fun _ => True) (items.foldlM body acc) := by
  induction items generalizing acc with
  | nil => exact done trivial
  | cons item rest ih =>
    rw [List.foldlM_cons]
    exact bind (turn acc item) fun _ _ => ih

/-- One call, whose answer is turned into how the program ends. -/
theorem call (req : BackendReq) {answer : req.Ans → Except CoreError α} (within : Within writes req)
    (answered : ∀ (nowMs : Int) (w : Backend) value,
      answer (w.reply nowMs req).2 = .ok value → V value) :
    Stays clock writes V (.ask req fun x => .ofExcept (answer x) : BackendProgram α) := by
  intro s
  apply Wp.server_ask_iff.mpr
  exact ⟨within, ofExcept (answered (clock s.calls) s.backend) _⟩

end Stays

theorem stays_get (key : RecordKey) : Stays clock writes
    (fun found => ∀ r, found = some r → r.key = key) (Service.get key) := by
  apply Stays.call (.store (.get key))
  · intro key' impossible
    cases impossible
  · intro nowMs w value answered r found
    cases answered
    exact MemStore.key_of_getRaw (MemStore.get_eq_some.mp found).1

/-- A call that changes no record. -/
theorem stays_reading {α : Type} (req : BackendReq) {answer : req.Ans → Except CoreError α}
    (within : Within writes req) : Stays clock writes (fun _ => True)
      (.ask req fun x => .ofExcept (answer x) : BackendProgram α) :=
  Stays.call req within fun _ _ _ _ => trivial

theorem stays_put {record : Record} (expected : Option Revision)
    (writable : writes record.key.ns = true) :
    Stays clock writes (PutWithin writes) (Service.put record expected) := by
  apply Stays.call (.store (.put record expected))
  · intro key here
    cases here
    exact writable
  · intro nowMs w value answered
    cases value with
    | committed revision => exact trivial
    | conflict c =>
      have own : c.current.key = record.key := MemStore.put_conflict answered
      rw [PutWithin, own]
      exact writable

theorem stays_putRaw {record : Record} (expected : Option Revision)
    (writable : writes record.key.ns = true) :
    Stays clock writes (PutWithin writes) (callPutRaw record expected) := by
  apply Stays.call (.store (.putRaw record expected))
  · intro key here
    cases here
    exact writable
  · intro nowMs w value answered
    cases value with
    | committed revision => exact trivial
    | conflict c =>
      have own : c.current.key = record.key := MemStore.putRaw_conflict answered
      rw [PutWithin, own]
      exact writable

theorem stays_deleteAs {key : RecordKey} (expected : Option Revision) (author : Option Identity)
    (writable : writes key.ns = true) :
    Stays clock writes (DeleteWithin writes) (Service.deleteAs key expected author) := by
  apply Stays.call (.store (.deleteAs key expected author))
  · intro key here
    cases here
    exact writable
  · intro nowMs w value answered
    cases value with
    | deleted => exact trivial
    | conflict c =>
      have own : c.current.key = key := MemStore.deleteAs_conflict answered
      rw [DeleteWithin, own]
      exact writable

theorem stays_purge {key : RecordKey} (expected : Revision) (writable : writes key.ns = true) :
    Stays clock writes (DeleteWithin writes) (Service.purge key expected) := by
  have removed : Stays clock writes (DeleteWithin writes)
      ((StoreProgram.purge key expected).lift storePart : BackendProgram DeleteResult) := by
    intro s
    apply Wp.server_ask_iff.mpr
    constructor
    · intro key here
      cases here
      exact writable
    · change Wp _ _ _ (Program.lift storePart (.ofExcept (s.backend.store.purge key expected).2))
      cases ended : (s.backend.store.purge key expected).2 with
      | error e => exact Stays.fail _
      | ok outcome =>
        apply Stays.done
        cases outcome with
        | deleted => exact trivial
        | conflict c =>
          have own : c.current.key = key := MemStore.purge_conflict ended
          rw [DeleteWithin, own]
          exact writable
  intro s
  apply Wp.server_ask_iff.mpr
  constructor
  · intro key impossible
    cases impossible
  · generalize answered : storePart.ans (StoreReq.getRaw key)
      (Serving.answer clock s (storePart.req (StoreReq.getRaw key))).2 = answer
    obtain rfl : Except.ok (s.backend.store.getRaw key) = answer := answered
    cases s.backend.store.getRaw key with
    | none => exact removed _
    | some current =>
      change Wp _ _ _ (Program.lift storePart
        (if !current.isTombstone && current.revision = expected then
          .fail (liveRefusal key current)
        else StoreProgram.purge key expected))
      split
      · exact Stays.fail _
      · exact removed _


/-! ## What the service does -/

section Tickets
variable [Lowercase]

/-- An upsert writes the ticket's record and no other. -/
theorem stays_upsert (ticket : Ticket Spelled) (author : String) (scope : Option String)
    (writable : writes "tickets" = true) :
    Stays clock writes (fun _ => True) ((upsert ticket author scope).lift storePart) := by
  have written : ∀ {record : Record} {expected : Option Revision} {outcome : Tickets.Outcome}
      {ends : PutResult → IngestProgram Tickets.Outcome},
      (∀ revision, ends (.committed revision) = pure outcome) →
      (∀ c, ends (.conflict c) = .fail (.conflict c)) → record.key.ns = "tickets" →
      Stays clock writes (fun _ => True) ((callPut record expected >>= ends).lift storePart) := by
    intro record expected outcome ends committed conflicted own
    have covered : writes record.key.ns = true := by rw [own, writable]
    rw [Program.lift_bind, lift_callPut]
    apply Stays.bind (stays_put expected covered).mapError
    intro result _
    cases result with
    | committed revision =>
      rw [committed]
      exact Stays.done trivial
    | conflict c =>
      rw [conflicted]
      exact Stays.fail
  unfold upsert
  cases ticket.toBody with
  | error e => exact Stays.fail
  | ok body =>
    dsimp only
    rw [Program.lift_bind, lift_callGet]
    apply Stays.bind (stays_get (recordKey ticket scope)).mapError
    intro found own
    cases found with
    | none => exact written (fun _ => rfl) (fun _ => rfl) rfl
    | some current =>
      have here : current.key.ns = "tickets" := by rw [own current rfl]; rfl
      split
      · exact Stays.done trivial
      · exact written (fun _ => rfl) (fun _ => rfl) here

theorem stays_ingestPages (author : String) (scope : Option String)
    (writable : writes "tickets" = true) (answers : List (Except SourceError (Page Spelled)))
    (cursor : Cursor) (summary : IngestSummary) : Stays clock writes (fun _ => True)
      ((ingestPages author scope answers cursor summary).lift storePart) := by
  induction answers generalizing cursor summary with
  | nil => exact Stays.done trivial
  | cons answer answers ih =>
    cases answer with
    | error e => exact Stays.fail
    | ok page =>
      rw [ingestPages, Program.lift_bind, Program.lift_foldlM]
      apply Stays.bind (V := fun _ => True)
      · apply Stays.foldlM
        intro summary ticket
        rw [ingestTicket, Program.lift_bind]
        apply Stays.bind (stays_upsert ticket author scope writable)
        intro outcome _
        exact Stays.done trivial
      · intro summary _
        split
        · exact Stays.done trivial
        · exact ih page.next summary

theorem stays_ticketSync [DebugFmt] (conn : Connection) (author : String)
    (writable : writes "tickets" = true) :
    Stays clock writes (fun _ => True) (Service.ticketSync conn author) := by
  unfold Service.ticketSync
  cases conn.source with
  | error e => exact Stays.fail
  | ok board =>
    apply Stays.bind (stays_ingestPages author (some conn.name) writable board.answers none {}).mapError
    intro summary _
    exact Stays.done trivial

end Tickets

theorem stays_ready {ε : Type} :
    Stays clock writes (fun _ => True) (Service.ready : ServiceProgram ε Bool) := by
  apply Stays.bind (stays_get _).attempt
  intro result _
  cases result <;> exact Stays.done trivial

section Graphs
variable [Serde] [CodeGraph]

theorem stays_graph (graphs : PersistentGraphs) (kind : GraphKind) (q : GraphQuery) :
    Stays clock writes (fun _ => True) (Service.graph graphs kind q) := by
  have viewed : Stays clock writes (fun _ => True) (Service.view graphs q.repo q.view) := by
    unfold Service.view
    cases graphs q.repo q.view with
    | some opened => exact Stays.ofExcept fun _ _ => trivial
    | none =>
      apply Stays.bind (V := fun _ => True)
      · apply Stays.bind (stays_get (Service.manifestKey q.repo q.view))
        intro found _
        cases found with
        | some record => exact Stays.ofExcept fun _ _ => trivial
        | none => exact Stays.fail
      · intro manifest _
        apply Stays.foldlM
        intro graph entry
        apply Stays.bind (stays_reading (.getBlob entry.2) trivial)
        intro found _
        cases found with
        | none => exact Stays.done trivial
        | some bytes =>
          apply Stays.bind (Stays.ofExcept fun _ _ => trivial)
          intro slice _
          exact Stays.done trivial
  apply Stays.bind viewed
  intro graph _
  exact Stays.done trivial

end Graphs

/-! ## HTTP -/

section Transports
variable [CodeGraph]

/-- A conflict in the payload is about a record in a namespace that may be written. -/
def Payload.Within (writes : String → Bool) : Payload → Prop
  | .put outcome => PutWithin writes outcome
  | .delete outcome => DeleteWithin writes outcome
  | _ => True

def GrpcReply.Within (writes : String → Bool) : GrpcReply → Prop
  | .put outcome => PutWithin writes outcome
  | .delete outcome => DeleteWithin writes outcome
  | _ => True

def Response.Within (writes : String → Bool) : Response → Prop
  | .http response => response.payload.Within writes
  | .grpc result => ∀ reply, result = .ok reply → reply.Within writes

section Http
variable {ε : Type}

/-- The responses whose conflicts are within `writes`. -/
abbrev HttpStays (clock : Nat → Int) (writes : String → Bool)
    (handler : ServiceProgram ε HttpResponse) : Prop :=
  Stays clock writes (fun response => response.payload.Within writes) handler

theorem stays_answering {α : Type} {V : α → Prop} {call : BackendProgram α}
    (holds : Stays clock writes V call) {respond : Except CoreError α → HttpResponse}
    (covered : ∀ result, (∀ value, result = .ok value → V value) →
      (respond result).payload.Within writes) :
    HttpStays clock writes (Http.answering call respond : ServiceProgram ε HttpResponse) := by
  apply Stays.bind holds.attempt
  intro result held
  exact Stays.done (covered result held)

/-- A response that never is a conflict. -/
theorem stays_orServerError {α : Type} {V : α → Prop} {call : BackendProgram α}
    (holds : Stays clock writes V call) {respond : α → HttpResponse}
    (covered : ∀ value, (respond value).payload.Within writes) :
    HttpStays clock writes
      (Http.answering call (Http.orServerError respond) : ServiceProgram ε HttpResponse) := by
  apply stays_answering holds
  intro result _
  cases result with
  | ok value => exact covered value
  | error e => exact trivial

omit [Blake3] in
theorem within_putOutcomeResponse {result : Except CoreError PutResult}
    (held : ∀ outcome, result = .ok outcome → PutWithin writes outcome) :
    (Http.putOutcomeResponse result).payload.Within writes := by
  cases result with
  | ok outcome => cases outcome <;> exact held _ rfl
  | error e => cases e <;> exact trivial

omit [Blake3] in
theorem within_deleteOutcomeResponse {result : Except CoreError DeleteResult}
    (held : ∀ outcome, result = .ok outcome → DeleteWithin writes outcome) :
    (Http.deleteOutcomeResponse result).payload.Within writes := by
  cases result with
  | ok outcome => cases outcome <;> exact held _ rfl
  | error e => cases e <;> exact trivial

theorem stays_respond {response : HttpResponse} (covered : response.payload.Within writes) :
    HttpStays clock writes (pure response : ServiceProgram ε HttpResponse) := Stays.done covered

variable [DebugFmt] [Serde]

omit [Serde] in
theorem stays_authorized {principal : Principal} {access : Access} {ns : String}
    {handler : ServiceProgram ε HttpResponse}
    (holds : principal.allows access ns = true → HttpStays clock writes handler) :
    HttpStays clock writes (Http.authorized principal access ns handler) := by
  unfold Http.authorized
  cases allowed : principal.allows access ns with
  | false => exact stays_respond trivial
  | true => exact holds allowed

omit [DebugFmt] [Serde] [Blake3] in
theorem within_pathKeyMismatch {path key : RecordKey} {bad : HttpResponse}
    (refused : Http.pathKeyMismatch path key = some bad) : bad.payload.Within writes := by
  unfold Http.pathKeyMismatch at refused
  split at refused
  · cases refused
    exact trivial
  · cases refused

/-! ### The handlers -/

section Handlers
variable {principal : Principal}
  (granted : ∀ ns, principal.allows .write ns = true → writes ns = true)
include granted

omit [Blake3] [CodeGraph] [DebugFmt] [Serde] in
theorem writable_asAdmin (admin : principal.isAdmin = true) (ns : String) : writes ns = true :=
  granted ns (Principal.allows_of_isAdmin admin .write ns)

omit [Serde] in
theorem stays_putRecord (path : RecordKey) (body : PutBody) :
    HttpStays clock writes
      (Http.putRecord principal path body : ServiceProgram ε HttpResponse) := by
  unfold Http.putRecord
  cases mismatch : Http.pathKeyMismatch path body.record.key with
  | some bad => exact stays_respond (within_pathKeyMismatch mismatch)
  | none =>
    apply stays_authorized
    intro allowed
    have writable : writes (Http.stamped principal body.record).key.ns = true := by
      rw [stamped_key]
      exact granted _ allowed
    apply stays_answering (stays_put body.expected writable)
    intro result held
    exact within_putOutcomeResponse held

omit [Serde] in
theorem stays_deleteRecord (path : RecordKey) (body : Option DeleteBody) :
    HttpStays clock writes
      (Http.deleteRecord principal path body : ServiceProgram ε HttpResponse) := by
  apply stays_authorized
  intro allowed
  apply stays_answering (stays_deleteAs _ _ (granted _ allowed))
  intro result held
  exact within_deleteOutcomeResponse held

omit [Serde] in
theorem stays_putRawRecord (path : RecordKey) (body : PutBody) :
    HttpStays clock writes
      (Http.putRawRecord principal path body : ServiceProgram ε HttpResponse) := by
  unfold Http.putRawRecord
  split
  · exact stays_respond trivial
  next admin =>
    cases mismatch : Http.pathKeyMismatch path body.record.key with
    | some bad => exact stays_respond (within_pathKeyMismatch mismatch)
    | none =>
      have writable := writable_asAdmin granted (by simpa using admin) body.record.key.ns
      apply stays_answering (stays_putRaw body.expected writable)
      intro result held
      exact within_putOutcomeResponse held

omit [Serde] in
theorem stays_purgeRecord (path : RecordKey) (body : Except String Revision) :
    HttpStays clock writes
      (Http.purgeRecord principal path body : ServiceProgram ε HttpResponse) := by
  unfold Http.purgeRecord
  split
  · exact stays_respond trivial
  next admin =>
    cases body with
    | error e => exact stays_respond trivial
    | ok expected =>
      have writable := writable_asAdmin granted (by simpa using admin) path.ns
      apply stays_answering (stays_purge expected writable)
      intro result held
      exact within_deleteOutcomeResponse held

omit [Serde] in
theorem stays_syncTickets [Lowercase] (conn : Connection) :
    HttpStays clock writes
      (Http.ticketSync principal conn : ServiceProgram ε HttpResponse) := by
  apply stays_authorized
  intro allowed
  apply Stays.bind (stays_ticketSync conn "gonzalod" (granted _ allowed)).attempt
  intro result _
  cases result with
  | ok summary => exact stays_respond trivial
  | error e => cases e <;> exact stays_respond trivial

end Handlers

omit [Serde] in
/-- A handler that only reads, and never answers with a conflict. -/
theorem stays_reader {principal : Principal} {access : Access} {ns : String} {α : Type}
    (req : BackendReq) {answer : req.Ans → Except CoreError α} (within : Within writes req)
    {respond : α → HttpResponse} (covered : ∀ value, (respond value).payload.Within writes) :
    HttpStays clock writes (Http.authorized principal access ns (Http.answering
      (.ask req fun x => .ofExcept (answer x)) (Http.orServerError respond)) :
        ServiceProgram ε HttpResponse) := by
  apply stays_authorized
  intro _
  exact stays_orServerError (stays_reading req within) covered

/-- Whatever a principal requests of a route, it changes what it may write only. -/
theorem stays_route [Lowercase] (daemon : Daemon) {principal : Principal}
    (granted : ∀ ns, principal.allows .write ns = true → writes ns = true) {req : HttpRequest}
    (seen : ∀ response, req ≠ .refused response) :
    HttpStays clock writes
      (Http.route daemon principal req : ServiceProgram ε HttpResponse) := by
  cases req with
  | healthz => exact stays_respond trivial
  | readyz =>
    apply Stays.bind stays_ready
    intro live _
    cases live <;> exact stays_respond trivial
  | getRecord path =>
    apply stays_reader (.store (.get path)) (by simp [Within, StoreReq.changes])
    intro found
    cases found <;> exact trivial
  | putRecord path body => exact stays_putRecord granted path body
  | deleteRecord path body => exact stays_deleteRecord granted path body
  | listKeys q =>
    exact stays_reader (.store (.list q)) (by simp [Within, StoreReq.changes]) fun _ => trivial
  | getRawRecord path =>
    exact stays_reader (.store (.getRaw path)) (by simp [Within, StoreReq.changes]) fun _ => trivial
  | putRawRecord path body => exact stays_putRawRecord granted path body
  | listRawKeys q =>
    exact stays_reader (.store (.listRaw q)) (by simp [Within, StoreReq.changes]) fun _ => trivial
  | purgeRecord path body => exact stays_purgeRecord granted path body
  | ticketSync conn => exact stays_syncTickets granted conn
  | graph kind q =>
    apply stays_authorized
    intro _
    exact stays_orServerError (stays_graph daemon.graphs kind q) fun _ => trivial
  | getBlob hash =>
    apply stays_reader (.getBlob ⟨hash⟩) trivial
    intro found
    cases found <;> exact trivial
  | headBlob hash =>
    apply stays_reader (.hasBlob ⟨hash⟩) trivial
    intro found
    cases found <;> exact trivial
  | putBlob hash body =>
    apply stays_authorized
    intro _
    split
    · exact stays_respond trivial
    · exact stays_orServerError (stays_reading (.putBlob body) trivial) fun _ => trivial
  | deleteBlob hash => exact stays_reader (.deleteBlob ⟨hash⟩) trivial fun _ => trivial
  | listBlobs => exact stays_reader .listBlobs trivial fun _ => trivial
  | refused response => exact absurd rfl (seen response)

end Http

/-! ## gRPC -/

section Grpc
variable [DebugFmt]

omit [CodeGraph] [DebugFmt] in
/-- Who is authenticated, the holder of the token or nobody. -/
theorem stays_authenticate {auth : Auth} {token : Option String} : Stays clock writes
    (fun p => auth.authenticate token = some p) (Grpc.authenticate auth token) := by
  unfold Grpc.authenticate
  cases found : auth.authenticate token with
  | none => exact Stays.fail
  | some principal => exact Stays.done rfl

omit [CodeGraph] in
theorem stays_checkAccess (principal : Principal) (access : Access) (ns : String) :
    Stays clock writes (fun _ => principal.allows access ns = true)
      (Grpc.checkAccess principal access ns) := by
  unfold Grpc.checkAccess
  cases allowed : principal.allows access ns with
  | true => exact Stays.done rfl
  | false => exact Stays.fail

omit [CodeGraph] in
theorem stays_authorize {auth : Auth} {token : Option String} (access : Access) (ns : String) :
    Stays clock writes
      (fun _ => ∃ p, auth.authenticate token = some p ∧ p.allows access ns = true)
      (Grpc.authorize auth token access ns) := by
  apply Stays.bind stays_authenticate
  intro principal found
  apply Stays.bind (stays_checkAccess principal access ns)
  intro _ allowed
  exact Stays.done ⟨principal, found, allowed⟩

omit [CodeGraph] in
theorem stays_authorizeAdmin {auth : Auth} {token : Option String} (operation : String) :
    Stays clock writes (fun _ => ∃ p, auth.authenticate token = some p ∧ p.isAdmin = true)
      (Grpc.authorizeAdmin auth token operation) := by
  apply Stays.bind stays_authenticate
  intro principal found
  split
  next admin => exact Stays.done ⟨principal, found, admin⟩
  · exact Stays.fail

omit [CodeGraph] [DebugFmt] in
theorem stays_parsed {α : Type} (field : Except String α) :
    Stays clock writes (fun _ => True) (Grpc.parsed field) := Stays.ofExcept fun _ _ => trivial

omit [CodeGraph] [DebugFmt] in
theorem stays_calling {α : Type} {V : α → Prop} {call : BackendProgram α}
    (holds : Stays clock writes V call) (status : CoreError → Status) :
    Stays clock writes V (Grpc.calling call status) := holds.mapError

/-- A reply that never is a conflict. -/
theorem stays_granted {α : Type} {auth : Auth} {token : Option String} {access : Access}
    {ns : String} {V : α → Prop} {call : BackendProgram α} (holds : Stays clock writes V call)
    {reply : α → GrpcReply} (covered : ∀ value, (reply value).Within writes) :
    Stays clock writes (GrpcReply.Within writes)
      (Grpc.granted auth token access ns call reply) := by
  apply Stays.bind (stays_authorize access ns)
  intro _ _
  apply Stays.bind (stays_calling holds _)
  intro value _
  exact Stays.done (covered value)

/-! ### The methods -/

section Methods
variable {auth : Auth} {token : Option String} (granted : ∀ p, auth.authenticate token = some p →
  ∀ ns, p.allows .write ns = true → writes ns = true)
include granted

theorem stays_rpcPut (record : Except String Record) (expected : Except String (Option Revision)) :
    Stays clock writes (GrpcReply.Within writes) (Grpc.put auth token record expected) := by
  apply Stays.bind stays_authenticate
  intro principal found
  apply Stays.bind (stays_parsed record)
  intro record _
  apply Stays.bind (stays_parsed expected)
  intro expected _
  apply Stays.bind (stays_checkAccess _ _ _)
  intro _ allowed
  have writable : writes (Http.stamped principal record).key.ns = true := by
    rw [stamped_key]
    exact granted principal found _ allowed
  apply Stays.bind (stays_calling (stays_put expected writable) _)
  intro outcome held
  exact Stays.done held

theorem stays_rpcDelete (key : RecordKey) (expected : Except String (Option Revision))
    (author : Except String (Option Identity)) : Stays clock writes (GrpcReply.Within writes)
      (Grpc.delete auth token key expected author) := by
  apply Stays.bind stays_authenticate
  intro principal found
  apply Stays.bind (stays_parsed expected)
  intro expected _
  apply Stays.bind (stays_parsed author)
  intro claimed _
  apply Stays.bind (stays_checkAccess _ _ _)
  intro _ allowed
  have writable := granted principal found _ allowed
  apply Stays.bind (stays_calling (stays_deleteAs expected _ writable) _)
  intro outcome held
  exact Stays.done held

theorem stays_rpcPutRaw (record : Except String Record)
    (expected : Except String (Option Revision)) : Stays clock writes (GrpcReply.Within writes)
      (Grpc.putRaw auth token record expected) := by
  apply Stays.bind (stays_authorizeAdmin _)
  intro _ admin
  obtain ⟨p, found, admin⟩ := admin
  apply Stays.bind (stays_parsed record)
  intro record _
  apply Stays.bind (stays_parsed expected)
  intro expected _
  have writable := writable_asAdmin (granted p found) admin record.key.ns
  apply Stays.bind (stays_calling (stays_putRaw expected writable) _)
  intro outcome held
  exact Stays.done held

theorem stays_rpcPurge (key : RecordKey) (expected : Except String Revision) :
    Stays clock writes (GrpcReply.Within writes) (Grpc.purge auth token key expected) := by
  apply Stays.bind (stays_authorizeAdmin _)
  intro _ admin
  obtain ⟨p, found, admin⟩ := admin
  apply Stays.bind (stays_parsed expected)
  intro expected _
  have writable := writable_asAdmin (granted p found) admin key.ns
  apply Stays.bind (stays_calling (stays_purge expected writable) _)
  intro outcome held
  exact Stays.done held

theorem stays_rpcTicketSync [Lowercase] (conn : Except String Connection) :
    Stays clock writes (GrpcReply.Within writes) (Grpc.ticketSync auth token conn) := by
  apply Stays.bind (stays_authorize _ _)
  intro _ allowed
  obtain ⟨p, found, allowed⟩ := allowed
  apply Stays.bind (stays_parsed conn)
  intro conn _
  apply Stays.bind (stays_ticketSync conn "gonzalod" (granted p found _ allowed)).mapError
  intro summary _
  exact Stays.done trivial

omit granted in
theorem stays_rpcPutBlob (hash : String) (content : Bytes) :
    Stays clock writes (GrpcReply.Within writes) (Grpc.putBlob auth token hash content) := by
  apply Stays.bind (stays_authorize _ _)
  intro _ _
  split
  · exact Stays.fail
  · apply Stays.bind (stays_calling (stays_reading (.putBlob content) trivial) _)
    intro hash _
    exact Stays.done trivial

end Methods

/-- Whatever a principal requests of an RPC, it changes what it may write only. -/
theorem stays_rpc [Lowercase] [Serde] (daemon : Daemon) {token : Option String} (granted : ∀ p,
    daemon.auth.authenticate token = some p → ∀ ns, p.allows .write ns = true → writes ns = true)
    (req : GrpcRequest) : Stays clock writes (GrpcReply.Within writes)
      (Grpc.rpc daemon token req) := by
  cases req with
  | get key => exact stays_granted (stays_get key) fun _ => trivial
  | put record expected => exact stays_rpcPut granted record expected
  | delete key expected author => exact stays_rpcDelete granted key expected author
  | list q =>
    exact stays_granted (stays_reading (.store (.list q)) (by simp [Within, StoreReq.changes]))
      fun _ => trivial
  | getRaw key =>
    exact stays_granted (stays_reading (.store (.getRaw key)) (by simp [Within, StoreReq.changes]))
      fun _ => trivial
  | listRaw q =>
    exact stays_granted (stays_reading (.store (.listRaw q)) (by simp [Within, StoreReq.changes]))
      fun _ => trivial
  | putRaw record expected => exact stays_rpcPutRaw granted record expected
  | purge key expected => exact stays_rpcPurge granted key expected
  | ticketSync conn => exact stays_rpcTicketSync granted conn
  | graph kind q => exact stays_granted (stays_graph daemon.graphs kind q) fun _ => trivial
  | putBlob hash content => exact stays_rpcPutBlob hash content
  | getBlob hash =>
    exact stays_granted (stays_reading (.getBlob ⟨hash⟩) trivial) fun _ => trivial
  | hasBlob hash =>
    exact stays_granted (stays_reading (.hasBlob ⟨hash⟩) trivial) fun _ => trivial
  | listBlobs => exact stays_granted (stays_reading .listBlobs trivial) fun _ => trivial
  | deleteBlob hash =>
    exact stays_granted (stays_reading (.deleteBlob ⟨hash⟩) trivial) fun _ => trivial

end Grpc

/-! ## A sequence of requests -/

section Runs
variable [Lowercase] [DebugFmt] [Serde] [HttpBodies] [GrpcMessages]

omit [GrpcMessages] in
theorem stays_handle {ε : Type} (daemon : Daemon) (token : Option String) (req : HttpRequest) :
    Stays clock (daemon.allows token .write)
      (fun response => (∀ refusal, req ≠ .refused refusal) →
        response.payload.Within (daemon.allows token .write))
      (Http.handle daemon token req : ServiceProgram ε HttpResponse) := by
  unfold Http.handle
  split
  next probe =>
    cases req with
    | healthz => exact Stays.done fun _ => trivial
    | readyz =>
      apply Stays.bind stays_ready
      intro live _
      cases live <;> exact Stays.done fun _ => trivial
    | _ => simp [Http.isProbe] at probe
  next =>
    unfold Http.authenticated
    cases found : daemon.auth.authenticate token with
    | none => exact Stays.done fun _ => trivial
    | some principal =>
      dsimp only
      split
      · exact Stays.done fun _ => trivial
      · have granted : ∀ ns, principal.allows .write ns = true →
            daemon.allows token .write ns = true := by
          intro ns allowed
          rw [granted_of_authenticate found, allowed]
        by_cases seen : ∀ refusal, req ≠ .refused refusal
        · exact (stays_route daemon granted seen).mono fun _ held _ => held
        · push Not at seen
          obtain ⟨refusal, rfl⟩ := seen
          exact Stays.done fun seen => absurd rfl (seen refusal)

theorem stays_respond_request (daemon : Daemon) (token : Option String) (req : Request) :
    Stays clock (daemon.allows token .write)
      (fun response => (∀ refusal, req ≠ .http (.refused refusal)) →
        response.Within (daemon.allows token .write)) (daemon.respond token req) := by
  cases req with
  | http req =>
    apply Stays.bind (stays_handle daemon token req)
    intro response held
    apply Stays.done
    intro seen
    exact held fun refusal same => seen refusal (congrArg Request.http same)
  | grpc req =>
    have handled : Stays clock (daemon.allows token .write)
        (GrpcReply.Within (daemon.allows token .write)) (Grpc.handle daemon token req) := by
      unfold Grpc.handle
      split
      · exact Stays.fail
      · apply stays_rpc
        intro p found ns allowed
        rw [granted_of_authenticate found, allowed]
    apply Stays.bind handled.attempt
    intro result held
    exact Stays.done fun _ => held

theorem stays_serve (daemon : Daemon) (token : Option String) (requests : List Request) :
    Stays clock (daemon.allows token .write) (fun _ => True) (daemon.serve token requests) := by
  induction requests with
  | nil => exact Stays.done trivial
  | cons req rest ih =>
    apply Stays.bind (stays_respond_request daemon token req)
    intro response _
    apply Stays.bind ih
    intro later _
    exact Stays.done trivial

/-- The requests of a principal leave the records of other namespaces alone. -/
theorem getRaw_serve (daemon : Daemon) (token : Option String) (requests : List Request)
    (s : Serving) {key : RecordKey} (closed : daemon.allows token .write key.ns = false) :
    ((daemon.serve token requests).exec (Serving.answer clock) s).1.backend.store.getRaw key =
      s.backend.store.getRaw key := by
  apply (stays_serve daemon token requests s).exec_kept
    fun s' => s'.backend.store.getRaw key = s.backend.store.getRaw key
  · intro s' req within same
    cases req with
    | store req =>
      have elsewhere : req.changes ≠ some key := by
        intro here
        rw [within key here] at closed
        cases closed
      exact (MemStore.getRaw_serve_of_ne elsewhere).trans same
    | _ => exact same
  · rfl

section Narrow
variable {reads : String → Bool}

end Narrow

/-- What the principal's requests are answered in a run over the backend. -/
def Daemon.answers (daemon : Daemon) (clock : Nat → Int) (token : Option String)
    (requests : List Request) (w : Backend) : Except Empty (List Response) :=
  ((daemon.serve token requests).exec (Serving.answer clock) ⟨w, 0⟩).2

/-- What they leave of the backend. -/
def Daemon.leaves (daemon : Daemon) (clock : Nat → Int) (token : Option String)
    (requests : List Request) (w : Backend) : Backend :=
  ((daemon.serve token requests).exec (Serving.answer clock) (⟨w, 0⟩ : Serving)).1.backend

end Runs

end Transports

end Calls

/-! ## A principal that may only write -/

section Blind

/-- No graphs. -/
@[reducible] def noGraphs : CodeGraph where
  Graph := Unit
  Slice := Unit
  Answer := Unit
  empty := ()
  insert _ _ _ := ()
  fromSliceBytes _ := .ok ()
  answer _ _ _ := ()

attribute [local instance] sampleBlake3 plainSerde plainDebug plainNames noGraphs

@[reducible] def shortBodies : HttpBodies := ⟨fun _ => 0, fun _ => ""⟩

@[reducible] def shortMessages : GrpcMessages := ⟨fun _ => 0, fun _ => ""⟩

attribute [local instance] shortBodies shortMessages

end Blind

end Gonzalo.Server
