import Gonzalo.Lib.Refinement
import Gonzalo.S3.Store

/-!
# The compare-and-swap loop as one atomic write

`write_planned` of `gonzalo-store-s3/src/lib.rs` against calls that apply their planner to
the stored record at one instant. A call that lost a race reads again, and takes a record
equal to the one it sent for its own: `Clear` says when that tells the truth, and then
every run of concurrent writes is a run of atomic ones.
-/

set_option autoImplicit false

namespace Gonzalo.S3
open Gonzalo.Core Gonzalo.Lib

/-! ## Concurrent calls -/

/-- What the last attempt of a call sent when it lost a race: the record it meant to leave
at its key, none for a removal, and whether it did leave it. -/
structure Sent where
  change : Option Record
  landed : Bool

/-- A write call in progress, with a note of what its last attempt sent. -/
structure Session (β : Type) [Etags β] where
  req : StoreReq
  program : S3Program β Answer
  sent : Option Sent

structure System (β σ Client : Type) [Etags β] where
  world : World β σ
  sessions : Client → Option (Session β)

/-- Who does what in a step. -/
inductive Act (Client : Type) where
  | start (i : Client) (req : StoreReq)
  | serve (i : Client)

section Systems

variable {β σ Client : Type} [RecordJson β] [Etags β] [DecidableEq σ] [DecidableEq Client]

omit [Etags β] in
/-- The record in an object, or none where there is no object. -/
def HoldsAt (object : Option β) (current : Option Record) : Prop :=
  match object with
  | none => current = none
  | some contents => ∃ record, decode contents = .ok record ∧ current = some record

omit [RecordJson β] [Etags β] in
/-- Whether a conditional write is answered as a lost race. -/
def lostRace : Except CoreError WriteOutcome → Bool
  | .ok (.lostRace _) => true
  | _ => false

omit [RecordJson β] in
/-- The note a request leaves that lost a race. -/
def noted (landed : Bool) : (req : S3Req β) → Except CoreError req.Found → Option Sent
  | .putObject record _ _, answer => if lostRace answer then some ⟨some record, landed⟩ else none
  | .deleteObject _ _, answer => if lostRace answer then some ⟨none, landed⟩ else none
  | _, _ => none

variable [Blake3]

/-- One step of the system. `allowed` admits what a call reads after an attempt that lost
a race. -/
inductive System.Step (owner : Client → σ) (cap : Nat)
    (allowed : StoreReq → Sent → Option Record → Prop) :
    Act Client → System β σ Client → System β σ Client → Prop
  | start {c : System β σ Client} (i : Client) (req : StoreReq) (around : Circumstances)
      (writes : (planOf cap req).isSome) :
      Step owner cap allowed (.start i req) c
        { c with sessions := Function.update c.sessions i (some ⟨req, call cap around req, none⟩) }
  | serve {c : System β σ Client} {i : Client} {s : Session β} {req : S3Req β}
      {next : Except CoreError req.Found → S3Program β Answer} {answer : Except CoreError req.Found}
      {world' : World β σ} (landed : Bool) (at_session : c.sessions i = some s)
      (at_req : s.program = .ask req next) (served : Served (owner i) c.world req answer world')
      (took : landed = true → c.world.bucket.Takes req world'.bucket)
      (idle : landed = false → world'.bucket = c.world.bucket)
      (clear : ∀ key sent current, req = .getObject key → s.sent = some sent →
        HoldsAt c.world.bucket.records[key]? current → allowed s.req sent current) :
      Step owner cap allowed (.serve i) c
        { world := world'
          sessions := Function.update c.sessions i
            (some ⟨s.req, next answer, noted landed req answer⟩) }

/-! ## Atomic calls -/

/-- A call waits for its instant, or has had it. -/
inductive Status where
  | idle
  | running (req : StoreReq)
  | answered (req : StoreReq) (result : Except CoreError Answer)

/-- The objects, and what has become of each client's call. -/
structure Atomic (β Client : Type) where
  stored : RecordKey → Option β
  status : Client → Status

omit [Etags β] [Blake3] in
/-- A planner applied to the record stored at `key`, all at once. -/
inductive Atomically (plan : Int → Option Record → Except CoreError (Planned Answer))
    (key : RecordKey) (stored : RecordKey → Option β) :
    Except CoreError Answer → (RecordKey → Option β) → Prop
  | finish {nowMs : Int} {current : Option Record} {answer : Answer}
      (held : HoldsAt (stored key) current) (planned : plan nowMs current = .ok (.finish answer)) :
      Atomically plan key stored (.ok answer) stored
  | refuse {nowMs : Int} {current : Option Record} {e : CoreError}
      (held : HoldsAt (stored key) current) (planned : plan nowMs current = .error e) :
      Atomically plan key stored (.error e) stored
  | write {nowMs : Int} {current : Option Record} {record : Record} {answer : Answer}
      {contents : β} (held : HoldsAt (stored key) current)
      (planned : plan nowMs current = .ok (.put record answer))
      (written : encode record = .ok contents) :
      Atomically plan key stored (.ok answer) (Function.update stored key (some contents))
  | remove {nowMs : Int} {current : Option Record} {answer : Answer}
      (held : HoldsAt (stored key) current) (planned : plan nowMs current = .ok (.remove answer)) :
      Atomically plan key stored (.ok answer) (Function.update stored key none)

/-- What the atomic system does in a step: a call starts, or the call of the client at
work has its instant, once, or nothing happens. -/
inductive Atomic.Follows (cap : Nat) : Act Client → Atomic β Client → Atomic β Client → Prop
  | start (a : Atomic β Client) (i : Client) (req : StoreReq) :
      Follows cap (.start i req) a
        { a with status := Function.update a.status i (.running req) }
  | stay (a : Atomic β Client) (i : Client) : Follows cap (.serve i) a a
  | apply {a : Atomic β Client} {i : Client} {req : StoreReq} {key : RecordKey}
      {plan : Int → Option Record → Except CoreError (Planned Answer)}
      {result : Except CoreError Answer} {stored' : RecordKey → Option β}
      (running : a.status i = .running req) (planned : planOf cap req = some (key, plan))
      (instant : Atomically plan key a.stored result stored') :
      Follows cap (.serve i) a
        ⟨stored', Function.update a.status i (.answered req result)⟩

end Systems

/-! ## What the planners do -/

section Planners

variable [Blake3] {cap : Nat} {req : StoreReq} {key : RecordKey}
  {plan : Int → Option Record → Except CoreError (Planned Answer)} {nowMs : Int}
  {current : Option Record}

/-- What a call may read after an attempt that lost a race: a put its own record if its
write landed and another one if not, and once its write landed a delete no live record
and a purge nothing. -/
def Clear (req : StoreReq) (sent : Sent) (current : Option Record) : Prop :=
  match req with
  | .put _ _ | .putRaw _ _ => sent.landed = true ↔ current = sent.change
  | .deleteAs _ _ _ => sent.landed = true → ∀ r, current = some r → r.isTombstone = true
  | .purge _ _ => sent.landed = true → current = none
  | _ => True

omit [Blake3] in
theorem putStep_put {plan : PutPlan} {record : Record} {answer : Answer}
    (step : putStep key plan = .ok (.put record answer)) : plan = .write record := by
  cases plan <;> cases step
  rfl

omit [Blake3] in
theorem deleteStep_put {plan : DeletePlan} {record : Record} {answer : Answer}
    (step : deleteStep plan = .put record answer) :
    plan = .write record ∧ answer = .deleted .deleted := by
  cases plan <;> cases step
  exact ⟨rfl, rfl⟩

/-- A plan to write is about the key of the call. -/
theorem planned_key (write : planOf cap req = some (key, plan)) {record : Record}
    {answer : Answer} (keyed : ∀ c, current = some c → c.key = key)
    (planned : plan nowMs current = .ok (.put record answer)) : record.key = key := by
  cases req <;> cases write
  case put given expected =>
    obtain ⟨-, ⟨-, -, rfl⟩ | ⟨_, -, -, -, -, rfl⟩ | ⟨_, -, -, -, rfl⟩⟩ :=
      planPut_write (putStep_put planned) <;> rfl
  case putRaw given expected =>
    obtain ⟨rfl, -⟩ := planPutRaw_write (putStep_put planned)
    rfl
  case deleteAs expected author =>
    simp only [Except.ok.injEq] at planned
    obtain ⟨c, rfl, -, -, rfl⟩ := planDelete_write (deleteStep_put planned).1
    exact keyed c rfl
  case purge expected =>
    simp only [Except.ok.injEq] at planned
    cases plan : planPurge current expected <;> rw [plan] at planned <;> cases planned

/-- Only a record that was read is removed, and only by a purge. -/
theorem planned_remove (write : planOf cap req = some (key, plan)) {answer : Answer}
    (planned : plan nowMs current = .ok (.remove answer)) :
    current.isSome ∧ (∃ expected, req = .purge key expected) ∧ answer = .deleted .deleted := by
  cases req <;> cases write
  case put given expected =>
    cases decided : planPut current given expected nowMs cap <;> simp [putStep, decided] at planned
  case putRaw given expected =>
    cases decided : planPutRaw current given expected nowMs cap <;>
      simp [putStep, decided] at planned
  case deleteAs expected author =>
    cases decided : planDelete current expected nowMs cap author <;>
      simp [deleteStep, decided] at planned
  case purge expected =>
    cases decided : planPurge current expected <;> simp [purgeStep, decided] at planned
    obtain ⟨c, rfl, -⟩ := planPurge_remove decided
    exact ⟨rfl, ⟨expected, rfl⟩, planned.symm⟩

/-- A delete that reads no live record is done. -/
theorem planDelete_dead {expected : Option Revision} {author : Option Identity}
    (dead : ∀ r, current = some r → r.isTombstone = true) :
    planDelete current expected nowMs cap author = .noop := by
  cases current with
  | none => rfl
  | some c => simp [planDelete, dead c rfl]

/-- What a plan to write says of its call: a put, or a delete that sends a tombstone. -/
theorem planned_put (write : planOf cap req = some (key, plan)) {record : Record}
    {answer : Answer} (planned : plan nowMs current = .ok (.put record answer)) :
    (∃ given expected, req = .put given expected ∨ req = .putRaw given expected) ∨
      (∃ expected author, req = .deleteAs key expected author) ∧ record.isTombstone = true ∧
        answer = .deleted .deleted := by
  cases req <;> cases write
  case put given expected => exact .inl ⟨given, expected, .inl rfl⟩
  case putRaw given expected => exact .inl ⟨given, expected, .inr rfl⟩
  case deleteAs expected author =>
    simp only [Except.ok.injEq] at planned
    obtain ⟨decided, rfl⟩ := deleteStep_put planned
    obtain ⟨c, rfl, -, -, rfl⟩ := planDelete_write decided
    exact .inr ⟨⟨expected, author, rfl⟩, rfl, rfl⟩
  case purge expected =>
    simp only [Except.ok.injEq] at planned
    cases decided : planPurge current expected <;> rw [decided] at planned <;> cases planned

end Planners

/-! ## Where a call stands -/

section Points

variable {β : Type} [RecordJson β] [Etags β] [Blake3]

/-- The stage of a write at which it has a plan to carry out. -/
def putStage (record : Record) (answer : Answer) (tag : Option (Etags.Tag β))
    (retry : Option (Record × Answer) → S3Program β Answer) : S3Program β Answer :=
  putRecordIf record (precondition tag) >>= settle answer (retry (some (record, answer)))

/-- A call that has had its instant if its write landed. -/
def statusOf (req : StoreReq) (answer : Answer) (landed : Bool) : Status :=
  if landed then .answered req (.ok answer) else .running req

/-- The points of a write call, each with what its last attempt sent and whether it has
had its instant. -/
inductive Point (req : StoreReq) (key : RecordKey)
    (plan : Int → Option Record → Except CoreError (Planned Answer)) (clock : Nat → Int) :
    S3Program β Answer → Option Sent → Status → Prop
  | attempt (n : Nat) : Point req key plan clock (writePlanned key plan clock n none) none
      (.running req)
  | retryPut {nowMs : Int} {current : Option Record} {record : Record} {answer : Answer}
      (n : Nat) (landed : Bool) (planned : plan nowMs current = .ok (.put record answer)) :
      Point req key plan clock (writePlanned key plan clock n (some (record, answer)))
        (some ⟨some record, landed⟩) (statusOf req answer landed)
  | retryRemove {nowMs : Int} {current : Option Record} {answer : Answer} (n : Nat)
      (landed : Bool) (planned : plan nowMs current = .ok (.remove answer)) :
      Point req key plan clock (writePlanned key plan clock n none) (some ⟨none, landed⟩)
        (statusOf req answer landed)
  | marking {nowMs : Int} {object : Option β} {current : Option Record} {record : Record}
      {answer : Answer} (n : Nat) (revision : Revision) (held : HoldsAt object current)
      (planned : plan nowMs current = .ok (.put record answer)) (own : record.key = key) :
      Point req key plan clock
        (send (.putMarker key revision) >>= fun _ => putStage record answer
          (object.map Etags.record) fun sent => writePlanned key plan clock n sent)
        none (.running req)
  | sending {nowMs : Int} {object : Option β} {current : Option Record} {record : Record}
      {answer : Answer} {contents : β} (n : Nat) (held : HoldsAt object current)
      (planned : plan nowMs current = .ok (.put record answer)) (own : record.key = key)
      (written : encode record = .ok contents) :
      Point req key plan clock
        (send (.putObject record contents (precondition (object.map Etags.record))) >>=
          settle answer (writePlanned key plan clock n (some (record, answer))))
        none (.running req)
  | removing {nowMs : Int} {contents : β} {current : Option Record} {answer : Answer} (n : Nat)
      (held : HoldsAt (some contents) current)
      (planned : plan nowMs current = .ok (.remove answer)) :
      Point req key plan clock
        (send (.deleteObject key (Etags.record contents)) >>=
          settle answer (writePlanned key plan clock n none))
        none (.running req)
  | done (answer : Answer) :
      Point req key plan clock (.done answer) none (.answered req (.ok answer))
  | refused (e : CoreError) :
      Point req key plan clock (.fail e) none (.answered req (.error e))
  | broken {e : CoreError} (status : Status) (foreign : ∀ k reason, e ≠ .notFound k ∧
      e ≠ .invalid reason) : Point req key plan clock (.fail e) none status

/-- What a served request may do to the objects and to the status of its call. -/
def Moves (req : StoreReq) (key : RecordKey)
    (plan : Int → Option Record → Except CoreError (Planned Answer))
    (stored stored' : RecordKey → Option β) (status status' : Status) : Prop :=
  (stored' = stored ∧ status' = status) ∨
    status = .running req ∧ ∃ result, Atomically plan key stored result stored' ∧
      status' = .answered req result

variable {req : StoreReq} {key : RecordKey}
  {plan : Int → Option Record → Except CoreError (Planned Answer)} {clock : Nat → Int}

omit [Etags β] [Blake3] in
theorem serde_foreign {e : CoreError} {contents : β} (unread : decode contents = .error e)
    (k : RecordKey) (reason : String) : e ≠ .notFound k ∧ e ≠ .invalid reason := by
  unfold decode at unread
  cases found : RecordJson.fromSlice contents <;> rw [found] at unread <;> cases unread
  exact ⟨by simp, by simp⟩

omit [Etags β] [Blake3] in
theorem encode_foreign {e : CoreError} {record : Record}
    (unwritten : (encode record : Except CoreError β) = .error e) (k : RecordKey)
    (reason : String) : e ≠ .notFound k ∧ e ≠ .invalid reason := by
  unfold encode at unwritten
  cases found : (RecordJson.toVecPretty record : Except String β) <;>
    rw [found] at unwritten <;> cases unwritten
  exact ⟨by simp, by simp⟩

omit [Blake3] in
/-- What the read at the start of an attempt comes to. -/
theorem readResult_got (object : Option β) :
    (∃ current, HoldsAt object current ∧
        ∃ found, readResult (.ok (object.map fun c => (c, Etags.record c))) = .ok found ∧
          found.map Prod.fst = current ∧ found.map Prod.snd = object.map Etags.record) ∨
      ∃ e, readResult (.ok (object.map fun c => (c, Etags.record c))) = .error e ∧
        ∀ k reason, e ≠ .notFound k ∧ e ≠ .invalid reason := by
  cases object with
  | none => exact .inl ⟨none, rfl, none, rfl, rfl, rfl⟩
  | some contents =>
    cases read : decode contents with
    | ok record =>
      refine .inl ⟨some record, ⟨record, read, rfl⟩, some (record, Etags.record contents), ?_,
        rfl, rfl⟩
      simp [readResult, Except.bind, read, Except.map]
    | error e =>
      refine .inr ⟨e, ?_, serde_foreign read⟩
      simp [readResult, Except.bind, read, Except.map]

omit [Blake3] in
theorem point_putStage {nowMs : Int} {object : Option β} {current : Option Record}
    {record : Record} {answer : Answer} (n : Nat) (held : HoldsAt object current)
    (planned : plan nowMs current = .ok (.put record answer)) (own : record.key = key) :
    Point req key plan clock
      (putStage record answer (object.map Etags.record) fun sent =>
        writePlanned key plan clock n sent) none (.running req) := by
  unfold putStage putRecordIf
  cases written : (encode record : Except CoreError β) with
  | error e => exact .broken _ (encode_foreign written)
  | ok contents => exact .sending n held planned own written

/-- An attempt that plans afresh on what it has just read. -/
theorem point_planned {cap : Nat} (write : planOf cap req = some (key, plan)) {nowMs : Int}
    {stored : RecordKey → Option β} {current : Option Record} (n : Nat)
    (held : HoldsAt (stored key) current) (keyed : ∀ c, current = some c → c.key = key) :
    ∃ status', Moves req key plan stored stored (.running req) status' ∧
      Point req key plan clock
        (Program.ofExcept (plan nowMs current) >>=
          carryOut key ((stored key).map Etags.record) fun sent =>
            writePlanned key plan clock n sent)
        none status' := by
  cases planned : plan nowMs current with
  | error e => exact ⟨_, .inr ⟨rfl, _, .refuse held planned, rfl⟩, .refused e⟩
  | ok action =>
    cases action with
    | finish answer => exact ⟨_, .inr ⟨rfl, _, .finish held planned, rfl⟩, .done answer⟩
    | put record answer =>
      have own := planned_key write keyed planned
      refine ⟨_, .inl ⟨rfl, rfl⟩, ?_⟩
      simp only [Program.ofExcept_ok, Program.done_bind, carryOut]
      by_cases dead : record.isTombstone = true
      · have mark : (markTombstone key record : S3Program β Unit) =
          send (.putMarker key record.revision) := if_pos dead
        rw [mark]
        exact .marking n record.revision held planned own
      · have skip : (markTombstone key record : S3Program β Unit) = pure () := if_neg dead
        rw [skip]
        exact point_putStage n held planned own
    | remove answer =>
      obtain ⟨some_current, -, -⟩ := planned_remove write planned
      refine ⟨_, .inl ⟨rfl, rfl⟩, ?_⟩
      cases object : stored key with
      | none =>
        rw [object] at held
        have none : current = none := held
        simp [none] at some_current
      | some contents =>
        rw [object] at held
        exact .removing n held planned

/-- A call that reads a record equal to the one it sent, or plans afresh. -/
theorem point_reread {cap : Nat} (write : planOf cap req = some (key, plan)) {nowMs : Int}
    {stored : RecordKey → Option β} {current : Option Record} (n : Nat)
    (held : HoldsAt (stored key) current) (keyed : ∀ c, current = some c → c.key = key)
    {before : Option Record} {sentAt : Int} {record : Record} {answer : Answer} {landed : Bool}
    (planned : plan sentAt before = .ok (.put record answer))
    (clear : Clear req ⟨some record, landed⟩ current) :
    ∃ status', Moves req key plan stored stored (statusOf req answer landed) status' ∧
      Point req key plan clock
        (unlessLanded (some (record, answer)) current (Program.ofExcept (plan nowMs current) >>=
          carryOut key ((stored key).map Etags.record) fun sent =>
            writePlanned key plan clock n sent))
        none status' := by
  simp only [unlessLanded]
  by_cases own : ownWriteLanded record current = true
  · -- the record that was read is the one this call sent
    have found : current = some record := by
      cases current with
      | none => simp [ownWriteLanded] at own
      | some c => simpa [ownWriteLanded] using own
    rw [if_pos own]
    have answered : landed = true ∨ ∃ expected author, req = .deleteAs key expected author ∧
        record.isTombstone = true ∧ answer = .deleted .deleted := by
      rcases planned_put write planned with ⟨given, expected, rfl | rfl⟩ | ⟨⟨expected, author, rfl⟩, dead⟩
      · exact .inl (clear.mpr found)
      · exact .inl (clear.mpr found)
      · exact .inr ⟨expected, author, rfl, dead⟩
    rcases answered with rfl | ⟨expected, author, rfl, dead, rfl⟩
    · exact ⟨_, .inl ⟨rfl, rfl⟩, .done answer⟩
    · cases landed with
      | true => exact ⟨_, .inl ⟨rfl, rfl⟩, .done _⟩
      | false =>
        refine ⟨_, .inr ⟨rfl, _, ?_, rfl⟩, .done _⟩
        cases write
        refine @Atomically.finish _ _ _ _ _ nowMs current _ held ?_
        rw [planDelete_dead fun r at_r => by cases found.symm.trans at_r; exact dead]
        rfl
  · rw [if_neg own]
    cases landed with
    | false => exact point_planned write n held keyed
    | true =>
      -- a write that landed leaves nothing for a delete to do
      rcases planned_put write planned with ⟨given, expected, rfl | rfl⟩ |
        ⟨⟨expected, author, rfl⟩, dead, rfl⟩
      · exact absurd (by simp [ownWriteLanded, clear.mp rfl]) own
      · exact absurd (by simp [ownWriteLanded, clear.mp rfl]) own
      · cases write
        refine ⟨_, .inl ⟨rfl, rfl⟩, ?_⟩
        simp only [planDelete_dead (clear rfl)]
        exact .done _

/-- Every object holds a record of its own key. -/
def Keyed (b : Bucket β) : Prop :=
  ∀ key contents record, b.records[key]? = some contents → decode contents = .ok record →
    record.key = key

omit [Etags β] [Blake3] in
theorem Keyed.current {b : Bucket β} (keyed : Keyed b) {key : RecordKey} {current : Option Record}
    (held : HoldsAt b.records[key]? current) : ∀ c, current = some c → c.key = key := by
  rintro c rfl
  cases object : b.records[key]? with
  | none =>
    rw [object] at held
    cases held
  | some contents =>
    rw [object] at held
    obtain ⟨record, read, same⟩ := held
    cases same
    exact keyed key contents c object read

omit [RecordJson β] [Blake3] in
/-- A conditional write that takes effect finds the object its call has read. -/
theorem admits_read (injective : Function.Injective (Etags.record : β → Etags.Tag β))
    {object stored : Option β}
    (admits : Bucket.Admits (precondition (object.map Etags.record)) stored) : stored = object := by
  cases object with
  | none => exact admits
  | some contents =>
    obtain ⟨other, at_stored, same⟩ := admits
    rw [at_stored, injective same]

omit [RecordJson β] [Etags β] [Blake3] in
theorem getElem?_insert_update {key : RecordKey} {contents : β} {b : Bucket β} :
    (fun k => (b.records.insert key contents)[k]?) =
      Function.update (fun k => b.records[k]?) key (some contents) := by
  funext k
  by_cases here : k = key
  · simp [here]
  · simp [Std.ExtTreeMap.getElem?_insert, here, Ne.symm here]

omit [RecordJson β] [Etags β] [Blake3] in
theorem getElem?_erase_update {key : RecordKey} {b : Bucket β} :
    (fun k => (b.records.erase key)[k]?) = Function.update (fun k => b.records[k]?) key none := by
  funext k
  by_cases here : k = key
  · simp [here]
  · simp [Std.ExtTreeMap.getElem?_erase, here, Ne.symm here]

variable {σ : Type} [DecidableEq σ] {store : σ} {w w' : World β σ}

/-- The objects of a world. -/
def objects (w : World β σ) : RecordKey → Option β := fun key => w.bucket.records[key]?

omit [Blake3] in
/-- The read at the start of an attempt. -/
theorem point_getObject {n : Nat} {pending : Option (Record × Answer)} {status : Status}
    {answer : Except CoreError (Option (β × Etags.Tag β))}
    (served : Served store w (.getObject key) answer w')
    (goes : ∀ current, HoldsAt (objects w key) current →
      ∃ status', Moves req key plan (objects w) (objects w) status status' ∧
        Point req key plan clock
          (unlessLanded pending current (Program.ofExcept (plan (clock n) current) >>=
            carryOut key ((objects w key).map Etags.record) fun sent =>
              writePlanned key plan clock n sent))
          none status') :
    w' = w ∧ ∃ status', Moves req key plan (objects w) (objects w) status status' ∧
      Point req key plan clock
        (Program.ofExcept (readResult answer) >>= fun current =>
          unlessLanded pending (current.map Prod.fst)
            (Program.ofExcept (plan (clock n) (current.map Prod.fst)) >>=
              carryOut key (current.map Prod.snd) fun sent => writePlanned key plan clock n sent))
        none status' := by
  cases served with
  | got =>
    refine ⟨rfl, ?_⟩
    rcases readResult_got w.bucket.records[key]? with
      ⟨current, held, found, read, first, second⟩ | ⟨e, unread, foreign⟩
    · rw [read, Program.ofExcept_ok, Program.done_bind, first, second]
      exact goes current held
    · rw [unread]
      exact ⟨status, .inl ⟨rfl, rfl⟩, .broken _ foreign⟩
  | failed _ message => exact ⟨rfl, status, .inl ⟨rfl, rfl⟩, .broken _ (by simp)⟩
  | lost message takes => cases takes

omit [Blake3] [DecidableEq σ] in
/-- The object that a conditional write puts is the planned one, in place of the one read. -/
theorem takes_putObject (injective : Function.Injective (Etags.record : β → Etags.Tag β))
    (roundTrip : RoundTrip β) (keyed : Keyed w.bucket) {nowMs : Int} {object : Option β}
    {current : Option Record} {record : Record} {reply : Answer} {contents : β}
    (held : HoldsAt object current) (planned : plan nowMs current = .ok (.put record reply))
    (own : record.key = key) (written : encode record = .ok contents) {b : Bucket β}
    (takes : w.bucket.Takes
      (.putObject record contents (precondition (object.map Etags.record))) b) :
    Keyed b ∧ Moves req key plan (objects w) (fun k => b.records[k]?) (.running req)
      (.answered req (.ok reply)) := by
  cases takes with
  | putObject admits =>
    refine ⟨fun k other r stored read => ?_, .inr ⟨rfl, _, ?_, rfl⟩⟩
    · by_cases here : k = record.key
      · subst here
        rw [Std.ExtTreeMap.getElem?_insert_self] at stored
        cases stored
        cases (roundTrip record contents written).symm.trans read
        rfl
      · refine keyed k other r ?_ read
        simpa [Std.ExtTreeMap.getElem?_insert, Ne.symm here] using stored
    · rw [getElem?_insert_update, own]
      refine .write ?_ planned written
      rw [own] at admits
      rwa [objects, admits_read injective admits]

omit [Blake3] [DecidableEq σ] in
/-- The object that a conditional delete removes is the one that was read. -/
theorem takes_deleteObject (injective : Function.Injective (Etags.record : β → Etags.Tag β))
    (keyed : Keyed w.bucket) {nowMs : Int} {contents : β} {current : Option Record}
    {reply : Answer} (held : HoldsAt (some contents) current)
    (planned : plan nowMs current = .ok (.remove reply)) {b : Bucket β}
    (takes : w.bucket.Takes (.deleteObject key (Etags.record contents)) b) :
    Keyed b ∧ Moves req key plan (objects w) (fun k => b.records[k]?) (.running req)
      (.answered req (.ok reply)) := by
  cases takes with
  | deleteObject admits =>
    refine ⟨fun k other r stored read => ?_, .inr ⟨rfl, _, ?_, rfl⟩⟩
    · by_cases here : k = key
      · simp [here] at stored
      · refine keyed k other r ?_ read
        simpa [Std.ExtTreeMap.getElem?_erase, Ne.symm here] using stored
    · rw [getElem?_erase_update]
      refine .remove ?_ planned
      have found := @admits_read β _ injective (some contents) _ admits
      rwa [objects, found]

omit [Blake3] [DecidableEq σ] in
/-- A call that is told of a lost race has had its instant if its request took effect. -/
theorem moves_raced (keyed : Keyed w.bucket) {r : S3Req β} {reply : Answer} {landed : Bool}
    (effect : ∀ b, w.bucket.Takes r b → Keyed b ∧ Moves req key plan (objects w)
      (fun k => b.records[k]?) (.running req) (.answered req (.ok reply)))
    (took : landed = true → w.bucket.Takes r w'.bucket)
    (idle : landed = false → w'.bucket = w.bucket) :
    Keyed w'.bucket ∧ Moves req key plan (objects w) (objects w') (.running req)
      (statusOf req reply landed) := by
  cases landed with
  | true => exact effect _ (took rfl)
  | false =>
    have same := idle rfl
    have unchanged : objects w' = objects w := by
      unfold objects
      rw [same]
    exact ⟨same ▸ keyed, .inl ⟨unchanged, rfl⟩⟩

omit [Blake3] in
/-- The conditional put of an attempt. -/
theorem point_sending (injective : Function.Injective (Etags.record : β → Etags.Tag β))
    (roundTrip : RoundTrip β) (keyed : Keyed w.bucket) {nowMs : Int} {object : Option β}
    {current : Option Record} {record : Record} {reply : Answer} {contents : β} (n : Nat)
    (held : HoldsAt object current) (planned : plan nowMs current = .ok (.put record reply))
    (own : record.key = key) (written : encode record = .ok contents)
    {answer : Except CoreError (S3Req.Found
      (.putObject record contents (precondition (object.map Etags.record))))}
    (served : Served store w (.putObject record contents (precondition (object.map Etags.record)))
      answer w') {landed : Bool}
    (took : landed = true → w.bucket.Takes
      (.putObject record contents (precondition (object.map Etags.record))) w'.bucket)
    (idle : landed = false → w'.bucket = w.bucket) :
    Keyed w'.bucket ∧ ∃ status', Moves req key plan (objects w) (objects w') (.running req) status' ∧
      Point req key plan clock
        (Program.ofExcept answer >>=
          settle reply (writePlanned key plan clock n (some (record, reply))) : S3Program β Answer)
        (noted landed (S3Req.putObject record contents (precondition (object.map Etags.record)))
          answer)
        status' := by
  have effect := fun b => @takes_putObject β _ _ req key plan σ w injective roundTrip keyed nowMs
    object current record reply contents held planned own written b
  have raced := moves_raced keyed effect took idle
  cases served with
  | put takes =>
    obtain ⟨keyed', moved⟩ := effect _ takes
    exact ⟨keyed', _, moved, .done _⟩
  | putRefused refuses => exact ⟨raced.1, _, raced.2, .retryPut n landed planned⟩
  | putBusy => exact ⟨raced.1, _, raced.2, .retryPut n landed planned⟩
  | putUnseen kind takes => exact ⟨raced.1, _, raced.2, .retryPut n landed planned⟩
  | failed _ message => exact ⟨keyed, _, .inl ⟨rfl, rfl⟩, .broken _ (by simp)⟩
  | lost message takes =>
    obtain ⟨keyed', moved⟩ := effect _ takes
    exact ⟨keyed', _, moved, .broken _ (by simp)⟩

omit [Blake3] in
/-- The conditional delete of an attempt. -/
theorem point_removing (injective : Function.Injective (Etags.record : β → Etags.Tag β))
    (keyed : Keyed w.bucket) {nowMs : Int} {contents : β} {current : Option Record}
    {reply : Answer} (n : Nat) (held : HoldsAt (some contents) current)
    (planned : plan nowMs current = .ok (.remove reply))
    {answer : Except CoreError (S3Req.Found (.deleteObject key (Etags.record contents)))}
    (served : Served store w (.deleteObject key (Etags.record contents)) answer w') {landed : Bool}
    (took : landed = true → w.bucket.Takes (.deleteObject key (Etags.record contents)) w'.bucket)
    (idle : landed = false → w'.bucket = w.bucket) :
    Keyed w'.bucket ∧ ∃ status', Moves req key plan (objects w) (objects w') (.running req) status' ∧
      Point req key plan clock
        (Program.ofExcept answer >>= settle reply (writePlanned key plan clock n none) :
          S3Program β Answer)
        (noted landed (S3Req.deleteObject key (Etags.record contents)) answer) status' := by
  have effect := fun b => @takes_deleteObject β _ _ req key plan σ w injective keyed nowMs
    contents current reply held planned b
  have raced := moves_raced keyed effect took idle
  cases served with
  | deleted takes =>
    obtain ⟨keyed', moved⟩ := effect _ takes
    exact ⟨keyed', _, moved, .done _⟩
  | deleteRefused refuses => exact ⟨raced.1, _, raced.2, .retryRemove n landed planned⟩
  | deleteBusy => exact ⟨raced.1, _, raced.2, .retryRemove n landed planned⟩
  | deleteUnseen kind takes => exact ⟨raced.1, _, raced.2, .retryRemove n landed planned⟩
  | failed _ message => exact ⟨keyed, _, .inl ⟨rfl, rfl⟩, .broken _ (by simp)⟩
  | lost message takes =>
    obtain ⟨keyed', moved⟩ := effect _ takes
    exact ⟨keyed', _, moved, .broken _ (by simp)⟩

/-- One served request of a write call: the objects and the call's status move together,
and the call is at one of its points again. -/
theorem Point.step {cap : Nat} (write : planOf cap req = some (key, plan))
    (injective : Function.Injective (Etags.record : β → Etags.Tag β)) (roundTrip : RoundTrip β)
    (keyed : Keyed w.bucket) {p : S3Program β Answer} {sent : Option Sent} {status : Status}
    (point : Point req key plan clock p sent status) {r : S3Req β}
    {next : Except CoreError r.Found → S3Program β Answer} (at_req : p = .ask r next)
    {answer : Except CoreError r.Found} (served : Served store w r answer w') {landed : Bool}
    (took : landed = true → w.bucket.Takes r w'.bucket)
    (idle : landed = false → w'.bucket = w.bucket)
    (clear : ∀ k s current, r = .getObject k → sent = some s →
      HoldsAt w.bucket.records[k]? current → Clear req s current) :
    Keyed w'.bucket ∧ ∃ status', Moves req key plan (objects w) (objects w') status status' ∧
      Point req key plan clock (next answer) (noted landed r answer) status' := by
  have fresh : ∀ n current, HoldsAt (objects w key) current → _ := fun n current held =>
    @point_planned β _ _ _ req key plan clock cap write (clock n) (objects w) current n held
      (keyed.current held)
  cases point with
  | attempt n =>
    cases n with
    | zero => cases at_req
    | succ n =>
      cases at_req
      obtain ⟨rfl, moved⟩ := @point_getObject β _ _ req key plan clock σ _ store w w' n none
        _ answer served fun current held => fresh n current held
      exact ⟨keyed, moved⟩
  | @retryPut sentAt before record reply n landed planned =>
    cases n with
    | zero => cases at_req
    | succ n =>
      cases at_req
      obtain ⟨rfl, moved⟩ := @point_getObject β _ _ req key plan clock σ _ store w w' n
        (some (record, reply)) _ answer served fun current held =>
          point_reread write n held (keyed.current held) planned (clear key _ current rfl rfl held)
      exact ⟨keyed, moved⟩
  | @retryRemove sentAt before reply n landed planned =>
    cases n with
    | zero => cases at_req
    | succ n =>
      cases at_req
      obtain ⟨-, ⟨expected, rfl⟩, rfl⟩ := planned_remove write planned
      have goes := @point_getObject β _ _ (.purge key expected) key plan clock σ _ store w w' n none
        (statusOf (.purge key expected) (.deleted .deleted) landed) answer served
      obtain ⟨rfl, moved⟩ := goes fun current held => by
        cases landed with
        | false => exact fresh n current held
        | true =>
          -- the object is gone, so there is nothing left to purge
          have gone : current = none := clear key _ current rfl rfl held rfl
          subst gone
          cases write
          exact ⟨_, .inl ⟨rfl, rfl⟩, .done _⟩
      exact ⟨keyed, moved⟩
  | @marking nowMs object current record reply n revision held planned own =>
    cases at_req
    cases served with
    | markerPut takes =>
      cases takes
      exact ⟨keyed, _, .inl ⟨rfl, rfl⟩, point_putStage n held planned own⟩
    | failed _ message => exact ⟨keyed, _, .inl ⟨rfl, rfl⟩, .broken _ (by simp)⟩
    | lost message takes =>
      cases takes
      exact ⟨keyed, _, .inl ⟨rfl, rfl⟩, .broken _ (by simp)⟩
  | sending n held planned own written =>
    cases at_req
    exact point_sending injective roundTrip keyed n held planned own written served took idle
  | removing n held planned =>
    cases at_req
    exact point_removing injective keyed n held planned served took idle
  | done reply => cases at_req
  | refused e => cases at_req
  | broken status foreign => cases at_req

omit [Blake3] in
/-- A call that has returned an answer has had its instant with it. -/
theorem Point.done_status {answer : Answer} {sent : Option Sent} {status : Status}
    (point : Point req key plan clock (.done answer : S3Program β Answer) sent status) :
    status = .answered req (.ok answer) := by
  generalize ended : (Program.done answer : S3Program β Answer) = p at point
  cases point with
  | done => cases ended; rfl
  | attempt n | retryPut n | retryRemove n => cases n <;> cases ended
  | marking | sending | removing => cases ended
  | refused | broken => cases ended

omit [Blake3] in
/-- So has one that has returned a refusal. -/
theorem Point.fail_status {e : CoreError} {sent : Option Sent} {status : Status}
    (point : Point req key plan clock (.fail e : S3Program β Answer) sent status)
    (refused : (∃ k, e = .notFound k) ∨ ∃ reason, e = .invalid reason) :
    status = .answered req (.error e) := by
  generalize ended : (Program.fail e : S3Program β Answer) = p at point
  cases point with
  | refused => cases ended; rfl
  | broken status foreign =>
    cases ended
    rcases refused with ⟨k, same⟩ | ⟨reason, same⟩
    · exact absurd same (foreign k "").1
    · exact absurd same (foreign key reason).2
  | attempt n | retryPut n | retryRemove n =>
    cases n <;> cases ended
    rcases refused with ⟨k, same⟩ | ⟨reason, same⟩ <;> cases same
  | marking | sending | removing => cases ended
  | done => cases ended

end Points

/-! ## Runs -/

section Runs

variable {β σ Client : Type} [RecordJson β] [Etags β] [DecidableEq σ] [DecidableEq Client]
  [Blake3] {owner : Client → σ} {cap : Nat}

/-- Each write in progress is at one of its points, and the atomic system holds the same
objects and the same calls. -/
structure Related (cap : Nat) (c : System β σ Client) (a : Atomic β Client) : Prop where
  keyed : Keyed c.world.bucket
  stored : a.stored = objects c.world
  calls : ∀ i s, c.sessions i = some s → ∃ key plan clock, planOf cap s.req = some (key, plan) ∧
    Point s.req key plan clock s.program s.sent (a.status i)

/-- Each step of the system is one the atomic system follows. -/
theorem related_step (injective : Function.Injective (Etags.record : β → Etags.Tag β))
    (roundTrip : RoundTrip β) (act : Act Client) (c c' : System β σ Client) (a : Atomic β Client)
    (related : Related cap c a) (step : System.Step owner cap Clear act c c') :
    ∃ a', Atomic.Follows cap act a a' ∧ Related cap c' a' := by
  cases step with
  | start i req around writes =>
    refine ⟨_, .start a i req, related.keyed, related.stored, fun j s at_j => ?_⟩
    by_cases here : j = i
    · subst here
      obtain ⟨⟨key, plan⟩, write⟩ := Option.isSome_iff_exists.mp writes
      simp only [Function.update_self, Option.some.injEq] at at_j ⊢
      subst at_j
      refine ⟨key, plan, around.clock, write, ?_⟩
      rw [call_of_planOf write]
      exact .attempt _
    · simp only [Function.update_of_ne here] at at_j ⊢
      exact related.calls j s at_j
  | @serve _ i s req next answer world' landed at_session at_req served took idle clear =>
    obtain ⟨key, plan, clock, write, point⟩ := related.calls i s at_session
    obtain ⟨keyed', status', moved, point'⟩ := point.step write injective roundTrip related.keyed
      at_req served took idle clear
    have others : ∀ (status : Client → Status), (∀ j ≠ i, status j = a.status j) →
        status i = status' → ∀ j t, Function.update c.sessions i
          (some ⟨s.req, next answer, noted landed req answer⟩) j = some t →
        ∃ key plan clock, planOf cap t.req = some (key, plan) ∧
          Point t.req key plan clock t.program t.sent (status j) := by
      intro status same here j t at_j
      by_cases own : j = i
      · subst own
        simp only [Function.update_self, Option.some.injEq] at at_j
        subst at_j
        exact ⟨key, plan, clock, write, here ▸ point'⟩
      · rw [Function.update_of_ne own] at at_j
        rw [same j own]
        exact related.calls j t at_j
    rcases moved with ⟨same, rfl⟩ | ⟨running, result, instant, rfl⟩
    · exact ⟨a, .stay a i, keyed', related.stored.trans same.symm,
        others a.status (fun _ _ => rfl) rfl⟩
    · rw [← related.stored] at instant
      refine ⟨_, .apply running write instant, keyed', rfl, ?_⟩
      exact others _ (fun j other => Function.update_of_ne other _ _) (Function.update_self ..)

omit [Etags β] in
/-- A put commits over the record that has the revision it expects. -/
theorem put_instant {record : Record} {expected : Option Revision}
    {plan : Int → Option Record → Except CoreError (Planned Answer)} {revision : Revision}
    {stored stored' : RecordKey → Option β}
    (write : planOf cap (.put record expected) = some (record.key, plan))
    (instant : Atomically plan record.key stored (.ok (.put (.committed revision))) stored') :
    ∃ current contents, HoldsAt (stored record.key) current ∧
      (visible current).map Record.revision = expected ∧
      stored' = Function.update stored record.key (some contents) := by
  cases write
  cases instant with
  | @finish nowMs current answer held planned =>
    cases decided : planPut current record expected nowMs cap <;> simp [putStep, decided] at planned
  | @write nowMs current kept answer contents held planned written =>
    refine ⟨current, contents, held, ?_, rfl⟩
    obtain ⟨-, ⟨rfl, rfl, -⟩ | ⟨t, rfl, dead, -, rfl, -⟩ | ⟨c, rfl, live, rfl, -⟩⟩ :=
      planPut_write (putStep_put planned)
    · rfl
    · simp [visible, dead]
    · simp [visible, live]
  | @remove nowMs current answer held planned =>
    cases decided : planPut current record expected nowMs cap <;> simp [putStep, decided] at planned

/-- Any number of concurrent writes that are `Clear` after each attempt that lost a race,
from a bucket whose objects hold records of their own keys. The run comes, step by step,
with a run of the atomic system in which a call has at most one instant between its start
and its return: the objects are the same throughout, a call that returns an answer has had
its instant with that answer, and so has one that returns a planner's refusal. -/
theorem writes_linearizable (injective : Function.Injective (Etags.record : β → Etags.Tag β))
    (roundTrip : RoundTrip β) {c₀ c : System β σ Client} (keyed : Keyed c₀.world.bucket)
    (nobody : ∀ i, c₀.sessions i = none)
    (run : Relation.ReflTransGen (fun x y => ∃ act, System.Step owner cap Clear act x y) c₀ c) :
    ∃ a : Atomic β Client,
      Relation.ReflTransGen (fun x y : System β σ Client × Atomic β Client =>
          ∃ act, System.Step owner cap Clear act x.1 y.1 ∧ Atomic.Follows cap act x.2 y.2)
        (c₀, ⟨objects c₀.world, fun _ => .idle⟩) (c, a) ∧
      a.stored = objects c.world ∧
      (∀ i s, c.sessions i = some s →
        (∀ answer, s.program = .done answer → a.status i = .answered s.req (.ok answer)) ∧
        (∀ e, s.program = .fail e → (∃ key, e = .notFound key) ∨ (∃ reason, e = .invalid reason) →
          a.status i = .answered s.req (.error e))) ∧
      ∀ record expected plan revision (stored stored' : RecordKey → Option β),
        planOf cap (.put record expected) = some (record.key, plan) →
        Atomically plan record.key stored (.ok (.put (.committed revision))) stored' →
        ∃ current contents, HoldsAt (stored record.key) current ∧
          (visible current).map Record.revision = expected ∧
          stored' = Function.update stored record.key (some contents) := by
  have start : Related cap c₀ ⟨objects c₀.world, fun _ => .idle⟩ :=
    ⟨keyed, rfl, fun i s at_i => by rw [nobody i] at at_i; cases at_i⟩
  obtain ⟨a, joint, related⟩ := simulates (related_step injective roundTrip) start run
  refine ⟨a, joint, related.stored, fun i s at_i => ?_, fun record expected plan revision stored
    stored' write instant => put_instant write instant⟩
  obtain ⟨key, plan, clock, -, point⟩ := related.calls i s at_i
  refine ⟨fun answer ended => ?_, fun e ended refused => ?_⟩
  · rw [ended] at point
    exact point.done_status
  · rw [ended] at point
    exact point.fail_status refused

end Runs

/-! ## Two clients that send the same record -/

section Identical

attribute [local instance] sampleBlake3 recordFiles

/-- Tags that tell their objects, for concrete runs. -/
abbrev sampleEtags : Etags Record := ⟨Record ⊕ Revision, .inl, .inr⟩

attribute [local instance] sampleEtags

/-- An empty bucket, and nobody at work. -/
def emptySystem : System Record Unit Bool :=
  ⟨⟨⟨∅, ∅, ∅⟩, fun _ => ∅⟩, fun _ => none⟩

/-- A copy of the topic to a place where it is not yet. -/
def copyCall : StoreReq := .putRaw (topicAt rustKey 0 "v0") none

def plainly : Circumstances := ⟨fun _ => 0, id, 1, fun _ => .refl _⟩

/-- Both clients have started the same copy. -/
def bothStarted : System Record Unit Bool :=
  { emptySystem with sessions := fun _ => some ⟨copyCall, call 32 plainly copyCall, none⟩ }

/-- What both are answered. -/
def copied : Answer := .put (.committed (topicAt rustKey 0 "v0").revision)

theorem reaches_bothStarted :
    Relation.ReflTransGen (fun x y => ∃ act, System.Step (fun _ => ()) 32 (fun _ _ _ => True) act x y)
      emptySystem bothStarted := by
  refine .head ⟨_, .start false copyCall plainly rfl⟩ (.head ⟨_, .start true copyCall plainly rfl⟩ ?_)
  have same : ∀ f : Bool → Option (Session Record), Function.update (Function.update f false
      (some ⟨copyCall, call 32 plainly copyCall, none⟩)) true
      (some ⟨copyCall, call 32 plainly copyCall, none⟩) =
      fun _ => some ⟨copyCall, call 32 plainly copyCall, none⟩ := by
    intro f
    funext i
    cases i <;> rfl
  rw [same]
  exact .refl

/-- The steps of the run: both read nothing, both send the record, and the one that lost
the race reads it back. -/
theorem both_copied :
    ∃ c : System Record Unit Bool,
      Relation.ReflTransGen
        (fun x y => ∃ i, System.Step (fun _ => ()) 32 (fun _ _ _ => True) (.serve i) x y)
        bothStarted c ∧
      ∀ i, ∃ s, c.sessions i = some s ∧ s.program = .done copied := by
  refine ⟨_, .head ⟨false, .serve false rfl rfl (.got rustKey) nofun (fun _ => rfl)
      (fun _ _ _ _ _ _ => trivial)⟩
    (.head ⟨true, .serve false rfl rfl (.got rustKey) nofun (fun _ => rfl)
      (fun _ _ _ _ _ _ => trivial)⟩
    (.head ⟨false, .serve true rfl rfl (.put (.putObject rfl)) (fun _ => .putObject rfl) nofun
      (fun _ _ _ _ _ _ => trivial)⟩
    (.head ⟨true, .serve false rfl rfl (.putRefused nofun) nofun (fun _ => rfl)
      (fun _ _ _ _ _ _ => trivial)⟩
    (.head ⟨true, .serve false rfl rfl (.got rustKey) nofun (fun _ => rfl)
      (fun _ _ _ _ _ _ => trivial)⟩ .refl)))), ?_⟩
  intro i
  cases i with
  | false => exact ⟨_, rfl, rfl⟩
  | true => exact ⟨_, rfl, rfl⟩

/-- Of the two copies, applied atomically, none has committed while nothing is stored, and
then at most one. -/
structure OneCopied (a : Atomic Record Bool) : Prop where
  running : ∀ i req, a.status i = .running req → req = copyCall
  absent : a.stored rustKey = none → ∀ i, a.status i ≠ .answered copyCall (.ok copied)
  unique : ∀ i j, a.status i = .answered copyCall (.ok copied) →
    a.status j = .answered copyCall (.ok copied) → i = j

theorem oneCopied_follows {i : Bool} {a a' : Atomic Record Bool} (one : OneCopied a)
    (follows : Atomic.Follows 32 (.serve i) a a') : OneCopied a' := by
  cases follows with
  | stay => exact one
  | @apply _ _ req key plan result stored' running write instant =>
    obtain rfl := one.running i req running
    cases write
    have still : ∀ j req, Function.update a.status i (.answered copyCall result) j = .running req →
        req = copyCall := by
      intro j req at_j
      by_cases here : j = i
      · subst here
        simp at at_j
      · rw [Function.update_of_ne here] at at_j
        exact one.running j req at_j
    -- whoever has committed then is the client at work, or had before
    have before : ∀ j, Function.update a.status i (.answered copyCall result) j =
        .answered copyCall (.ok copied) →
        (j = i ∧ result = .ok copied) ∨ a.status j = .answered copyCall (.ok copied) := by
      intro j at_j
      by_cases here : j = i
      · subst here
        rw [Function.update_self] at at_j
        cases at_j
        exact .inl ⟨rfl, rfl⟩
      · rw [Function.update_of_ne here] at at_j
        exact .inr at_j
    have unchanged : result ≠ .ok copied → stored' = a.stored →
        OneCopied ⟨stored', Function.update a.status i (.answered copyCall result)⟩ := by
      rintro other rfl
      refine ⟨still, fun none j at_j => ?_, fun j k at_j at_k => ?_⟩
      · rcases before j at_j with ⟨-, same⟩ | held
        · exact other same
        · exact one.absent none j held
      · rcases before j at_j with ⟨-, same⟩ | held
        · exact absurd same other
        · rcases before k at_k with ⟨-, same⟩ | held'
          · exact absurd same other
          · exact one.unique j k held held'
    cases instant with
    | @finish nowMs current answer held planned =>
      refine unchanged ?_ rfl
      rintro ⟨⟩
      cases decided : planPutRaw current (topicAt rustKey 0 "v0") none nowMs 32 <;>
        simp [putStep, decided, copied] at planned
    | refuse held planned => exact unchanged nofun rfl
    | @write nowMs current record answer contents held planned written =>
      have expected := (planPutRaw_write (putStep_put planned)).2
      have none : a.stored rustKey = none := by
        cases object : a.stored rustKey with
        | none => rfl
        | some contents =>
          have read : HoldsAt (some contents) current := object ▸ held
          obtain ⟨r, -, rfl⟩ := read
          cases expected
      have first : ∀ j, Function.update a.status i (.answered copyCall (.ok answer)) j =
          .answered copyCall (.ok copied) → j = i := fun j at_j =>
        (before j at_j).elim And.left fun held => absurd held (one.absent none j)
      refine ⟨still, fun empty => ?_, fun j k at_j at_k => (first j at_j).trans (first k at_k).symm⟩
      have filled : Function.update a.stored rustKey (some contents) rustKey = some contents :=
        Function.update_self ..
      cases filled.symm.trans empty
    | @remove nowMs current answer held planned =>
      cases decided : planPutRaw current (topicAt rustKey 0 "v0") none nowMs 32 <;>
        simp [putStep, decided] at planned

/-- Both copies are answered `Committed`, which no run of the atomic system allows. -/
theorem identical_puts_commit_twice :
    Relation.ReflTransGen
        (fun x y => ∃ act, System.Step (fun _ => ()) 32 (fun _ _ _ => True) act x y)
        emptySystem bothStarted ∧
      ∃ c : System Record Unit Bool,
        Relation.ReflTransGen
          (fun x y => ∃ i, System.Step (fun _ => ()) 32 (fun _ _ _ => True) (.serve i) x y)
          bothStarted c ∧
        (∀ i, ∃ s, c.sessions i = some s ∧ s.program = .done copied) ∧
        ∀ a : Atomic Record Bool,
          Relation.ReflTransGen (fun x y => ∃ i, Atomic.Follows 32 (.serve i) x y)
            ⟨objects bothStarted.world, fun _ => .running copyCall⟩ a →
          ¬ ∀ i, a.status i = .answered copyCall (.ok copied) := by
  obtain ⟨c, run, ended⟩ := both_copied
  refine ⟨reaches_bothStarted, c, run, ended, fun a atomic both => ?_⟩
  have start : OneCopied ⟨objects bothStarted.world, fun _ => .running copyCall⟩ :=
    ⟨fun _ _ same => by cases same; rfl, nofun, nofun⟩
  have one : OneCopied a := by
    clear both
    induction atomic with
    | refl => exact start
    | tail _ step ih =>
      obtain ⟨i, follows⟩ := step
      exact oneCopied_follows ih follows
  exact absurd (one.unique false true (both _) (both _)) (by decide)

/-- A copy of another record to the same place. -/
def otherCopy : StoreReq := .putRaw (topicAt rustKey 0 "v1") none

/-- What it is answered once the topic is there. -/
def refusedCopy : Answer := .put (.conflict ⟨rustKey, none, topicAt rustKey 0 "v0"⟩)

/-- Both clients read nothing and send their records; the one that lost the race reads the
other's record, and is refused. -/
theorem racing_copies :
    ∃ c : System Record Unit Bool,
      Relation.ReflTransGen
        (fun x y => ∃ act, System.Step (fun _ => ()) 32 Clear act x y) emptySystem c ∧
      (∃ s, c.sessions false = some s ∧ s.req = copyCall ∧ s.program = .done copied) ∧
      ∃ s, c.sessions true = some s ∧ s.req = otherCopy ∧ s.program = .done refusedCopy := by
  refine ⟨_, .head ⟨.start false copyCall, .start false copyCall plainly rfl⟩
    (.head ⟨.start true otherCopy, .start true otherCopy plainly rfl⟩
    (.head ⟨.serve false, .serve false rfl rfl (.got rustKey) nofun (fun _ => rfl)
      (fun _ _ _ _ none => by cases none)⟩
    (.head ⟨.serve true, .serve false rfl rfl (.got rustKey) nofun (fun _ => rfl)
      (fun _ _ _ _ none => by cases none)⟩
    (.head ⟨.serve false, .serve true rfl rfl (.put (.putObject rfl)) (fun _ => .putObject rfl) nofun
      (fun _ _ _ read => by cases read)⟩
    (.head ⟨.serve true, .serve false rfl rfl (.putRefused nofun) nofun (fun _ => rfl)
      (fun _ _ _ read => by cases read)⟩
    (.head ⟨.serve true, .serve false rfl rfl (.got rustKey) nofun (fun _ => rfl) ?_⟩ .refl)))))),
    ⟨_, rfl, rfl, rfl⟩, ⟨_, rfl, rfl, rfl⟩⟩
  intro key sent current at_key noted held
  cases at_key
  cases noted
  obtain ⟨record, decoded, rfl⟩ := held
  cases decoded
  -- what it reads is the other's record, and its own never landed
  apply iff_of_false
  · decide
  · decide

/-- Of the two copies one has its instant and is answered `Committed`; the other has its own
after that, and is answered the conflict. -/
theorem copies_linearizable :
    ∃ (c : System Record Unit Bool) (a : Atomic Record Bool),
      Relation.ReflTransGen
        (fun x y => ∃ act, System.Step (fun _ => ()) 32 Clear act x y) emptySystem c ∧
      a.stored = objects c.world ∧ a.status false = .answered copyCall (.ok copied) ∧
      a.status true = .answered otherCopy (.ok refusedCopy) := by
  obtain ⟨c, reached, ⟨s, at_false, same, ended⟩, s', at_true, same', ended'⟩ := racing_copies
  have injective : Function.Injective (Etags.record : Record → Etags.Tag Record) :=
    fun _ _ same => Sum.inl.inj same
  have roundTrip : RoundTrip Record := fun record file written => by
    cases written
    rfl
  have keyed : Keyed emptySystem.world.bucket := fun key contents record stored _ => by
    simp [emptySystem] at stored
  obtain ⟨a, -, stored, calls, -⟩ :=
    writes_linearizable injective roundTrip keyed (fun _ => rfl) reached
  apply Exists.intro c
  apply Exists.intro a
  exact ⟨reached, stored, same ▸ (calls false s at_false).1 copied ended,
    same' ▸ (calls true s' at_true).1 refusedCopy ended'⟩

end Identical

end Gonzalo.S3
