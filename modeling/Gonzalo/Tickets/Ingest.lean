import Gonzalo.Core.Backend
import Gonzalo.Core.PurgeRace
import Gonzalo.Tickets.Key

/-!
# Ingest

`gonzalo-ticket/src/ingest.rs`: pull the pages of a source and persist each ticket. What
the source answers, call after call, is a list; how `serde_json` spells a ticket is a
parameter. The counters of a summary are `Nat`.
-/

set_option autoImplicit false

namespace Gonzalo.Tickets
open Gonzalo.Core Gonzalo.Lib

/-- `Cursor`. -/
abbrev Cursor : Type := Option String

/-- A page of changed tickets plus the cursor to resume from. -/
structure Page (Fields : Type) where
  tickets : List (Ticket Fields)
  next : Cursor

/-- Errors a source can surface. -/
inductive SourceError where
  | unsupported (operation : String)
  | backend (message : String)
  deriving DecidableEq, Repr

def SourceError.display : SourceError → String
  | unsupported operation => "operation not supported by this source: " ++ operation
  | backend message => "ticket source backend error: " ++ message

/-- How many tickets a sync created, updated, or left untouched. -/
structure IngestSummary where
  imported : Nat := 0
  updated : Nat := 0
  unchanged : Nat := 0
  deriving DecidableEq, Repr

/-- Failures during ingest. -/
inductive IngestError where
  | source (e : SourceError)
  | store (e : CoreError)
  | conflict (c : Conflict)
  deriving DecidableEq

/-- What `Display` says of a conflict: only the revisions. -/
def conflictText [DebugFmt] (key : RecordKey) (expected : Option Revision) (current : Revision) :
    String :=
  let expected := match expected with
    | some revision => "Some(" ++ revision.debug ++ ")"
    | none => "None"
  "write conflict on " ++ key.display ++ ": expected " ++ expected ++ ", store has " ++
    current.debug

/-- `Display` of an ingest error. -/
def IngestError.display [DebugFmt] : IngestError → String
  | source e => "ticket source: " ++ e.display
  | store e => "store: " ++ e.display
  | conflict c => conflictText c.key c.expected c.current.revision

/-- Per-ticket result of an upsert. -/
inductive Outcome where
  | imported | updated | unchanged
  deriving DecidableEq, Repr

/-- `serde_json` on tickets. -/
class TicketSerde (Fields : Type) where
  toVec : Ticket Fields → Except String Bytes

section
variable {Fields : Type} [Lowercase] [TicketSerde Fields] [Blake3]

/-- `RecordCodec::to_body`. -/
def Ticket.toBody (self : Ticket Fields) : Except CoreError Body :=
  match TicketSerde.toVec self with
  | .ok bytes => .ok (.inline bytes)
  | .error message => .error (.serde message)

abbrev IngestProgram (α : Type) : Type := Program storeInterface IngestError α

def callGet (key : RecordKey) : IngestProgram (Option Record) :=
  @Program.request storeInterface _ (.get key) >>= fun answer => .ofExcept (answer.mapError .store)

def callPut (record : Record) (expected : Option Revision) : IngestProgram PutResult :=
  @Program.request storeInterface _ (.put record expected) >>= fun answer =>
    .ofExcept (answer.mapError .store)

/-- `upsert`. -/
def upsert (ticket : Ticket Fields) (author : String) (scope : Option String) :
    IngestProgram Outcome :=
  match ticket.toBody with
  | .error e => .fail (.store e)
  | .ok body => do
    let key := recordKey ticket scope
    let newHash := ContentHash.of body.bytes
    let existing ← callGet key
    if existing.any fun stored => stored.revision.hash = newHash then pure .unchanged
    else
      let expected := existing.map Record.revision
      let metadata := Meta.new (.new author) "ticket-ingest"
      let record := match existing with
        | some current => current.update body metadata
        | none => .create key .ticket body metadata
      match ← callPut record expected with
      | .committed _ => pure (if existing.isSome then .updated else .imported)
      | .conflict c => .fail (.conflict c)

def IngestSummary.tally (self : IngestSummary) : Outcome → IngestSummary
  | .imported => { self with imported := self.imported + 1 }
  | .updated => { self with updated := self.updated + 1 }
  | .unchanged => { self with unchanged := self.unchanged + 1 }

/-- The body of the loop over the tickets of a page. -/
def ingestTicket (author : String) (scope : Option String) (summary : IngestSummary)
    (ticket : Ticket Fields) : IngestProgram IngestSummary := do
  return summary.tally (← upsert ticket author scope)

/-- The loop of `ingest`: `none` while the source has not answered the next call. -/
def ingestPages (author : String) (scope : Option String) :
    List (Except SourceError (Page Fields)) → Cursor → IngestSummary →
      IngestProgram (Option IngestSummary)
  | [], _, _ => pure none
  | .error e :: _, _, _ => .fail (.source e)
  | .ok page :: answers, cursor, summary => do
    let summary ← page.tickets.foldlM (ingestTicket author scope) summary
    if page.next = none ∨ page.next = cursor then return some summary
    else ingestPages author scope answers page.next summary

/-- One call of `ingest`. -/
structure IngestCall (Fields : Type) where
  author : String
  scope : Option String
  answers : List (Except SourceError (Page Fields))

/-- `ingest`. -/
def ingest (call : IngestCall Fields) : IngestProgram (Option IngestSummary) :=
  ingestPages call.author call.scope call.answers none {}

/-- The answers bring the paging to its end: a last page, or an error. -/
def Settles : List (Except SourceError (Page Fields)) → Cursor → Prop
  | [], _ => False
  | .error _ :: _, _ => True
  | .ok page :: answers, cursor =>
    page.next = none ∨ page.next = cursor ∨ Settles answers page.next

/-- Ingesting a source that settles ends with a summary or an error. -/
theorem wp_ingestPages_settles {View : Type} {C : Contract storeInterface View}
    (guards : ∀ view req, C.guard view req) (author : String) (scope : Option String)
    {answers : List (Except SourceError (Page Fields))} {cursor : Cursor}
    (settles : Settles answers cursor) (summary : IngestSummary) (view : View) :
    Wp C (fun _ result => result ≠ .ok none) view
      (ingestPages author scope answers cursor summary) := by
  induction answers generalizing cursor summary view with
  | nil => exact settles.elim
  | cons answer answers ih =>
    cases answer with
    | error e =>
      change Except.error _ ≠ Except.ok none
      simp
    | ok page =>
      have taken : ∀ p : IngestProgram IngestSummary, Wp C (fun _ _ => True) view p :=
        Wp.of_free guards fun _ _ => trivial
      rw [ingestPages]
      apply Wp.bind (taken _)
      · intro view' summary' _
        split
        next => simp
        next more =>
          obtain ⟨named, moved⟩ := not_or.mp more
          exact ih ((settles.resolve_left named).resolve_left moved) summary' view'
      · intro view' e _
        simp

/-- The tickets that the pages up to the last one list. -/
def listedPages : List (Except SourceError (Page Fields)) → Cursor → List (Ticket Fields)
  | [], _ => []
  | .error _ :: _, _ => []
  | .ok page :: answers, cursor =>
    if page.next = none ∨ page.next = cursor then page.tickets
    else page.tickets ++ listedPages answers page.next

def IngestCall.listed (self : IngestCall Fields) : List (Ticket Fields) :=
  listedPages self.answers none

/-! ## One ticket -/

/-- The answers of a store that nobody else uses. -/
def Answers (s : MemStore) (req : StoreReq) (answer : req.Ans) (s' : MemStore) : Prop :=
  ∃ nowMs, s' = (s.serve nowMs req).1 ∧ answer = (s.serve nowMs req).2

/-- What ingest alone has written: live records at the revision of their inline body. -/
def OnlyTickets (s : MemStore) : Prop :=
  ∀ key r, s.getRaw key = some r → r.isTombstone = false ∧
    (∃ bytes, r.body = .inline bytes) ∧ r.revision.hash = .of r.body.bytes

/-- The store holds a live record with the body of the ticket. -/
def Holds (s : MemStore) (scope : Option String) (ticket : Ticket Fields) : Prop :=
  ∃ r, s.get (recordKey ticket scope) = some r ∧ ticket.toBody = .ok r.body

/-- What an upsert does to the store. -/
structure Upserted (scope : Option String) (ticket : Ticket Fields) (s s' : MemStore)
    (result : Except IngestError Outcome) : Prop where
  only : OnlyTickets s'
  others : ∀ key, key ≠ recordKey ticket scope → s'.getRaw key = s.getRaw key
  stored : ∀ outcome, result = .ok outcome → Holds s' scope ticket
  again : Holds s scope ticket → s' = s ∧ result = .ok .unchanged

omit [Lowercase] [Blake3] in
theorem toBody_inline {ticket : Ticket Fields} {body : Body} (encoded : ticket.toBody = .ok body) :
    ∃ bytes, body = .inline bytes := by
  rw [Ticket.toBody] at encoded
  split at encoded
  next bytes _ => exact ⟨bytes, (Except.ok.inj encoded).symm⟩
  next => cases encoded

/-- Where ingest alone has written, the revision tells whether the body is the ticket's. -/
theorem holds_iff (collisionFree : Function.Injective Blake3.hashHex) {s : MemStore}
    (only : OnlyTickets s) {ticket : Ticket Fields} {scope : Option String} {body : Body}
    (encoded : ticket.toBody = .ok body) :
    Holds s scope ticket ↔
      (s.get (recordKey ticket scope)).any (fun stored => stored.revision.hash = .of body.bytes) := by
  obtain ⟨bytes, rfl⟩ := toBody_inline encoded
  rw [Option.any_eq_true]
  constructor
  · rintro ⟨r, stored, encoded'⟩
    rw [encoded] at encoded'
    have same := Except.ok.inj encoded'
    obtain ⟨-, -, stamped⟩ := only _ r (MemStore.get_eq_some.mp stored).1
    exact ⟨r, stored, by rw [stamped, same]; exact decide_eq_true rfl⟩
  · rintro ⟨r, stored, same⟩
    obtain ⟨-, ⟨bytes', inline⟩, stamped⟩ := only _ r (MemStore.get_eq_some.mp stored).1
    rw [stamped, inline, decide_eq_true_iff] at same
    have equal : bytes' = bytes := collisionFree (ContentHash.mk.inj same)
    exact ⟨r, stored, by rw [encoded, inline, equal]⟩

/-- Filing the ticket's record is an upsert of a ticket that was not held. -/
theorem upserted_insert {s : MemStore} (only : OnlyTickets s) {ticket : Ticket Fields}
    {scope : Option String} {body : Body} (encoded : ticket.toBody = .ok body)
    (other : ¬ Holds s scope ticket) {w : Record} (own : w.key = recordKey ticket scope)
    (live : w.isTombstone = false) (filled : w.body = body)
    (stamped : w.revision.hash = .of body.bytes) (outcome : Outcome) :
    Upserted scope ticket s (s.insert w) (.ok outcome) where
  only := by
    intro key r stored
    rw [MemStore.getRaw_insert] at stored
    split at stored
    · cases stored
      obtain ⟨bytes, inline⟩ := toBody_inline encoded
      exact ⟨live, ⟨bytes, by rw [filled, inline]⟩, by rw [filled, stamped]⟩
    · exact only key r stored
  others key apart := by
    rw [MemStore.getRaw_insert, if_neg fun same => apart (same.symm.trans own)]
  stored _ _ := by
    refine ⟨w, MemStore.get_eq_some.mpr ⟨?_, live⟩, by rw [filled, encoded]⟩
    rw [MemStore.getRaw_insert, if_pos own]
  again held := absurd held other

theorem wp_upsert (collisionFree : Function.Injective Blake3.hashHex) {s : MemStore}
    (only : OnlyTickets s) (ticket : Ticket Fields) (author : String) (scope : Option String) :
    Wp (.ofRelation Answers) (Upserted scope ticket s) s (upsert ticket author scope) := by
  rw [upsert]
  cases encoded : ticket.toBody with
  | error e =>
    refine ⟨only, fun _ _ => rfl, fun _ ended => (nomatch ended), ?_⟩
    rintro ⟨r, -, encoded'⟩
    rw [encoded] at encoded'
    cases encoded'
  | ok body =>
    refine ⟨trivial, ?_⟩
    rintro answer s₁ ⟨nowMs, same, rfl⟩
    obtain rfl : s₁ = s := same
    have known := @holds_iff _ _ _ _ collisionFree _ only _ scope _ encoded
    show Wp _ _ s₁ (if (s₁.get (recordKey ticket scope)).any _ then _ else _)
    split
    next same =>
      have held := known.mpr same
      exact ⟨only, fun _ _ => rfl, fun _ _ => held, fun _ => ⟨rfl, rfl⟩⟩
    next changed =>
      have other : ¬ Holds s₁ scope ticket := fun held => changed (known.mp held)
      refine ⟨trivial, ?_⟩
      rintro answer s₂ ⟨nowMs', rfl, rfl⟩
      cases existing : s₁.get (recordKey ticket scope) with
      | none =>
        have absent : s₁.getRaw (recordKey ticket scope) = none := by
          cases raw : s₁.getRaw (recordKey ticket scope) with
          | none => rfl
          | some r =>
            have live := MemStore.get_eq_some.mpr ⟨raw, (only _ r raw).1⟩
            rw [existing] at live
            cases live
        have commits := @MemStore.put_create_commits _ _ _ absent .ticket (by decide) nowMs' body
          (Meta.new (.new author) "ticket-ingest")
        simp only [MemStore.serve, Option.map_none, commits]
        exact upserted_insert only encoded other rfl rfl rfl rfl _
      | some current =>
        have raw := (MemStore.get_eq_some.mp existing).1
        have commits := MemStore.put_update_commits raw (only _ current raw).1 nowMs' body
          (Meta.new (.new author) "ticket-ingest")
        simp only [MemStore.serve, Option.map_some, commits]
        have filed := MemStore.key_of_getRaw raw
        have own : (updatedRecord current
            (current.update body (Meta.new (.new author) "ticket-ingest")) nowMs' s₁.cap).key =
              recordKey ticket scope := filed
        exact upserted_insert only encoded other own (only _ current raw).1 rfl rfl _

/-! ## A listing -/

omit [Blake3] in
theorem Holds.of_getRaw {s s' : MemStore} {scope : Option String} {ticket : Ticket Fields}
    (held : Holds s scope ticket)
    (same : s'.getRaw (recordKey ticket scope) = s.getRaw (recordKey ticket scope)) :
    Holds s' scope ticket := by
  obtain ⟨r, stored, encoded⟩ := held
  exact ⟨r, by rw [MemStore.get, same]; exact stored, encoded⟩

/-- The store holds the last ticket of each key in the list. -/
def Stored (s : MemStore) (scope : Option String) (tickets : List (Ticket Fields)) : Prop :=
  ∀ front ticket back, tickets = front ++ ticket :: back →
    (∀ later ∈ back, recordKey later scope ≠ recordKey ticket scope) → Holds s scope ticket

/-- Only the keys of the listed tickets have changed. -/
def Touches (s s' : MemStore) (scope : Option String) (tickets : List (Ticket Fields)) : Prop :=
  ∀ key, (∀ ticket ∈ tickets, key ≠ recordKey ticket scope) → s'.getRaw key = s.getRaw key

omit [Blake3] [TicketSerde Fields] in
theorem Touches.append {s s₁ s' : MemStore} {scope : Option String}
    {first second : List (Ticket Fields)} (before : Touches s s₁ scope first)
    (after : Touches s₁ s' scope second) : Touches s s' scope (first ++ second) := by
  intro key apart
  rw [after key fun ticket member => apart ticket (List.mem_append_right first member),
    before key fun ticket member => apart ticket (List.mem_append_left second member)]

omit [Blake3] in
theorem Stored.append {s₁ s' : MemStore} {scope : Option String}
    {first second : List (Ticket Fields)} (before : Stored s₁ scope first)
    (touches : Touches s₁ s' scope second) (after : Stored s' scope second) :
    Stored s' scope (first ++ second) := by
  intro front ticket back split last
  rcases List.append_eq_append_iff.mp split with ⟨more, rfl, rest⟩ | ⟨more, rfl, rest⟩
  · exact after more ticket back rest last
  · cases more with
    | nil => exact after [] ticket back rest.symm last
    | cons same more =>
      obtain ⟨rfl, rfl⟩ := List.cons.inj rest
      have held := before front ticket more rfl fun later member =>
        last later (List.mem_append_left second member)
      apply held.of_getRaw
      exact touches _ fun later member =>
        (last later (List.mem_append_right more member)).symm

omit [Blake3] in
theorem stored_singleton {s : MemStore} {scope : Option String} {ticket : Ticket Fields}
    (held : Holds s scope ticket) : Stored s scope [ticket] := by
  intro front other back split _
  rcases front with _ | ⟨first, front⟩
  · obtain ⟨rfl, -⟩ := List.cons.inj split
    exact held
  · simp at split

/-- What taking in a list of tickets does to the store. -/
structure TookIn (scope : Option String) (tickets : List (Ticket Fields)) (s s' : MemStore) : Prop
    where
  only : OnlyTickets s'
  touches : Touches s s' scope tickets

/-- So many more tickets are unchanged. -/
def IngestSummary.addUnchanged (self : IngestSummary) (n : Nat) : IngestSummary :=
  { self with unchanged := self.unchanged + n }

theorem wp_page (collisionFree : Function.Injective Blake3.hashHex) {s : MemStore}
    (only : OnlyTickets s) (author : String) (scope : Option String)
    (tickets : List (Ticket Fields)) (summary : IngestSummary) :
    Wp (.ofRelation Answers) (fun s' result => TookIn scope tickets s s' ∧
        (∀ summary', result = .ok summary' → Stored s' scope tickets) ∧
        ((∀ ticket ∈ tickets, Holds s scope ticket) →
          s' = s ∧ result = .ok (summary.addUnchanged tickets.length)))
      s (tickets.foldlM (ingestTicket author scope) summary) := by
  refine Wp.foldlM (fun rest view acc => ∃ done, tickets = done ++ rest ∧
    TookIn scope done s view ∧ Stored view scope done ∧
    ((∀ ticket ∈ done, Holds s scope ticket) → view = s ∧ acc = summary.addUnchanged done.length))
    ?_ ?_ ?_
  · rintro ticket rest view acc ⟨done, rfl, took, stored, again⟩
    refine (wp_upsert collisionFree took.only ticket author scope).bind ?_ ?_
    · intro view' outcome upserted
      have own : Touches view view' scope [ticket] := fun key apart =>
        upserted.others key (apart ticket List.mem_cons_self)
      refine ⟨done ++ [ticket], by simp, ⟨upserted.only, took.touches.append own⟩, ?_, ?_⟩
      · exact stored.append own (stored_singleton (upserted.stored outcome rfl))
      · intro held
        obtain ⟨rfl, rfl⟩ := again fun t member => held t (List.mem_append_left [ticket] member)
        obtain ⟨rfl, unchanged⟩ := upserted.again
          (held ticket (List.mem_append_right done List.mem_cons_self))
        cases unchanged
        exact ⟨rfl, by simp [IngestSummary.addUnchanged, IngestSummary.tally, Nat.add_assoc]⟩
    · intro view' e upserted
      have own : Touches view view' scope (ticket :: rest) := fun key apart =>
        upserted.others key (apart ticket List.mem_cons_self)
      refine ⟨⟨upserted.only, took.touches.append own⟩, fun _ ended => (nomatch ended), ?_⟩
      intro held
      obtain ⟨rfl, rfl⟩ := again fun t member => held t (List.mem_append_left _ member)
      obtain ⟨-, unchanged⟩ := upserted.again
        (held ticket (List.mem_append_right done List.mem_cons_self))
      cases unchanged
  · rintro view acc ⟨done, listed, took, stored, again⟩
    rw [List.append_nil] at listed
    subst listed
    refine ⟨took, fun _ _ => stored, fun held => ?_⟩
    obtain ⟨rfl, rfl⟩ := again held
    exact ⟨rfl, rfl⟩
  · refine ⟨[], rfl, ⟨only, fun _ _ => rfl⟩, ?_, fun _ => ⟨rfl, rfl⟩⟩
    intro front ticket back split
    simp at split

/-- The pages end: the last one repeats its cursor or names none. -/
def PagesEnd : List (Except SourceError (Page Fields)) → Cursor → Prop
  | [], _ => False
  | .error _ :: _, _ => False
  | .ok page :: answers, cursor =>
    page.next = none ∨ page.next = cursor ∨ PagesEnd answers page.next

theorem wp_ingestPages (collisionFree : Function.Injective Blake3.hashHex) (author : String)
    (scope : Option String) (answers : List (Except SourceError (Page Fields))) {s : MemStore}
    (only : OnlyTickets s) (cursor : Cursor) (summary : IngestSummary) :
    Wp (.ofRelation Answers) (fun s' result =>
        TookIn scope (listedPages answers cursor) s s' ∧
        (∀ summary', result = .ok (some summary') →
          PagesEnd answers cursor ∧ Stored s' scope (listedPages answers cursor)) ∧
        (PagesEnd answers cursor →
          (∀ ticket ∈ listedPages answers cursor, Holds s scope ticket) → s' = s ∧
            result = .ok (some (summary.addUnchanged (listedPages answers cursor).length))))
      s (ingestPages author scope answers cursor summary) := by
  induction answers generalizing s cursor summary with
  | nil => exact ⟨⟨only, fun _ _ => rfl⟩, fun _ ended => (nomatch ended), fun ends => ends.elim⟩
  | cons answer answers ih =>
    cases answer with
    | error e =>
      exact ⟨⟨only, fun _ _ => rfl⟩, fun _ ended => (nomatch ended), fun ends => ends.elim⟩
    | ok page =>
      rw [ingestPages, listedPages]
      refine (wp_page collisionFree only author scope page.tickets summary).bind ?_ ?_
      · rintro s₁ summary₁ ⟨took, stored, again⟩
        have stored := stored summary₁ rfl
        split
        next last =>
          refine ⟨took, fun _ _ => ⟨?_, stored⟩, fun _ held => ?_⟩
          · exact last.imp_right .inl
          · obtain ⟨rfl, same⟩ := again held
            cases same
            exact ⟨rfl, rfl⟩
        next more =>
          refine (ih took.only page.next summary₁).mono ?_
          rintro s' result ⟨took', ended, again'⟩
          refine ⟨⟨took'.only, took.touches.append took'.touches⟩, ?_, ?_⟩
          · intro summary' finished
            obtain ⟨ends, stored'⟩ := ended summary' finished
            exact ⟨.inr (.inr ends), stored.append took'.touches stored'⟩
          · intro ends held
            obtain ⟨rfl, same⟩ := again fun t member => held t (List.mem_append_left _ member)
            cases same
            have ends' : PagesEnd answers page.next := by
              rcases ends with none_left | repeated | ends
              · exact absurd (.inl none_left) more
              · exact absurd (.inr repeated) more
              · exact ends
            obtain ⟨rfl, same⟩ := again' ends' fun t member => held t (List.mem_append_right _ member)
            refine ⟨rfl, ?_⟩
            rw [same, List.length_append]
            simp [IngestSummary.addUnchanged, Nat.add_assoc]
      · rintro s₁ e ⟨took, -, again⟩
        refine ⟨⟨took.only, ?_⟩, fun _ ended => (nomatch ended), fun _ held => ?_⟩
        · intro key apart
          apply took.touches key
          intro t member
          apply apart t
          split
          · exact member
          · exact List.mem_append_left _ member
        · have held : ∀ t ∈ page.tickets, Holds s scope t := by
            intro t member
            apply held t
            split
            · exact member
            · exact List.mem_append_left _ member
          cases (again held).2

/-! ## Runs of ingests -/

/-- A call of `ingest`, and what it returned. -/
abbrev Entry (Fields : Type) : Type :=
  IngestCall Fields × Except IngestError (Option IngestSummary)

/-- The items a call lists. -/
def IngestCall.items (self : IngestCall Fields) : List ItemId :=
  self.listed.map fun ticket => ticket.item self.scope

/-- The store after ingests, one after another, into an empty store nobody else uses. -/
inductive Ingested (cap : Nat) (cap_pos : 0 < cap) : List (Entry Fields) → MemStore → Prop
  | start : Ingested cap cap_pos [] (.empty cap cap_pos)
  | call {history : List (Entry Fields)} {s s' : MemStore} {call : IngestCall Fields}
      {result : Except IngestError (Option IngestSummary)} (ran : Ingested cap cap_pos history s)
      (next : Program.Runs Answers s (ingest call) s' result) :
      Ingested cap cap_pos (history ++ [(call, result)]) s'

/-- The items that the calls of a run list. -/
def itemsOf (history : List (Entry Fields)) : List ItemId :=
  history.flatMap fun entry => entry.1.items

/-- No two items of the run are spelled alike. -/
def KeptApart (history : List (Entry Fields)) : Prop :=
  ∀ x ∈ itemsOf history, ∀ y ∈ itemsOf history, x ≠ y → ¬ SpelledAlike x y

/-- The source lists an item twice only with one content. -/
def IngestCall.Consistent (self : IngestCall Fields) : Prop :=
  ∀ ticket ∈ self.listed, ∀ other ∈ self.listed,
    ticket.item self.scope = other.item self.scope → ticket.toBody = other.toBody

/-- What one call of `ingest` does. -/
structure CallDone (call : IngestCall Fields) (s s' : MemStore)
    (result : Except IngestError (Option IngestSummary)) : Prop where
  tookIn : TookIn call.scope call.listed s s'
  ended : ∀ summary, result = .ok (some summary) →
    PagesEnd call.answers none ∧ Stored s' call.scope call.listed
  again : PagesEnd call.answers none → (∀ ticket ∈ call.listed, Holds s call.scope ticket) →
    s' = s ∧ result = .ok (some { unchanged := call.listed.length })

theorem ingest_done (collisionFree : Function.Injective Blake3.hashHex) {call : IngestCall Fields}
    {s s' : MemStore} {result : Except IngestError (Option IngestSummary)} (only : OnlyTickets s)
    (ran : Program.Runs Answers s (ingest call) s' result) : CallDone call s s' result := by
  obtain ⟨tookIn, ended, again⟩ := (wp_ingestPages collisionFree call.author call.scope
    call.answers only none {}).runs ran
  refine ⟨tookIn, ended, fun ends held => ?_⟩
  obtain ⟨same, finished⟩ := again ends held
  refine ⟨same, finished.trans ?_⟩
  simp [IngestSummary.addUnchanged, IngestCall.listed]

theorem Ingested.snoc_iff {cap : Nat} {cap_pos : 0 < cap} {history : List (Entry Fields)}
    {entry : Entry Fields} {s' : MemStore} :
    Ingested cap cap_pos (history ++ [entry]) s' ↔
      ∃ s, Ingested cap cap_pos history s ∧ Program.Runs Answers s (ingest entry.1) s' entry.2 := by
  constructor
  · intro ran
    generalize whole : history ++ [entry] = entries at ran
    cases ran with
    | start => simp at whole
    | call ran next =>
      obtain ⟨rfl, last⟩ := List.append_inj' whole rfl
      obtain ⟨rfl, -⟩ := List.cons.inj last
      exact ⟨_, ran, next⟩
  · rintro ⟨s, ran, next⟩
    exact .call ran next

theorem Ingested.only (collisionFree : Function.Injective Blake3.hashHex) {cap : Nat}
    {cap_pos : 0 < cap} {history : List (Entry Fields)} {s : MemStore}
    (ran : Ingested cap cap_pos history s) : OnlyTickets s := by
  induction ran with
  | start =>
    intro key r stored
    simp at stored
  | call ran next ih => exact (ingest_done collisionFree ih next).tookIn.only

/-- A call only changes the keys of the items it lists. -/
theorem CallDone.getRaw_eq {call : IngestCall Fields} {s s' : MemStore}
    {result : Except IngestError (Option IngestSummary)} (done : CallDone call s s' result)
    {key : RecordKey} (apart : ∀ x ∈ call.items, key ≠ x.key) : s'.getRaw key = s.getRaw key :=
  done.tookIn.touches key fun _ member => apart _ (List.mem_map_of_mem member)

/-- A run up to one of its calls, that call, and what the later calls left of its keys. -/
theorem Ingested.split (collisionFree : Function.Injective Blake3.hashHex) {cap : Nat}
    {cap_pos : 0 < cap} {before after : List (Entry Fields)} {entry : Entry Fields} {s : MemStore}
    (ran : Ingested cap cap_pos (before ++ entry :: after) s) :
    ∃ s₁ s₂, CallDone entry.1 s₁ s₂ entry.2 ∧
      ∀ key, (∀ x ∈ itemsOf after, key ≠ x.key) → s.getRaw key = s₂.getRaw key := by
  induction after using List.reverseRecOn generalizing s with
  | nil =>
    obtain ⟨s₁, ran, next⟩ := Ingested.snoc_iff.mp ran
    exact ⟨s₁, s, ingest_done collisionFree (ran.only collisionFree) next, fun _ _ => rfl⟩
  | append_singleton after last ih =>
    rw [← List.cons_append, ← List.append_assoc, Ingested.snoc_iff] at ran
    obtain ⟨s₃, ran, next⟩ := ran
    obtain ⟨s₁, s₂, done, kept⟩ := ih ran
    refine ⟨s₁, s₂, done, fun key apart => ?_⟩
    rw [(ingest_done collisionFree (ran.only collisionFree) next).getRaw_eq fun x member =>
      apart x (by simp [itemsOf, member])]
    exact kept key fun x member => apart x (by
      rw [itemsOf, List.flatMap_append]
      exact List.mem_append_left _ member)

/-! ## Connections are kept apart -/

omit [Lowercase] [TicketSerde Fields] [Blake3] in
theorem mem_itemsOf {history : List (Entry Fields)} {entry : Entry Fields} {x : ItemId}
    (called : entry ∈ history) (listed : x ∈ entry.1.items) : x ∈ itemsOf history :=
  List.mem_flatMap.mpr ⟨entry, called, listed⟩

omit [TicketSerde Fields] [Blake3] in
/-- Where no two items are spelled alike, different items have different keys. -/
theorem KeptApart.key_ne {history : List (Entry Fields)} (apart : KeptApart history) {x y : ItemId}
    (x_listed : x ∈ itemsOf history) (y_listed : y ∈ itemsOf history) (other : x ≠ y) :
    x.key ≠ y.key :=
  fun same => apart x x_listed y y_listed other ((ItemId.key_eq_iff x y).mp same)

omit [TicketSerde Fields] [Blake3] in
theorem KeptApart.mono {history more : List (Entry Fields)} (apart : KeptApart (history ++ more)) :
    KeptApart history := by
  have listed : ∀ x ∈ itemsOf history, x ∈ itemsOf (history ++ more) := by
    intro x member
    rw [itemsOf, List.flatMap_append]
    exact List.mem_append_left _ member
  exact fun x x_listed y y_listed => apart x (listed x x_listed) y (listed y y_listed)

/-- After a run, an item that a finished call listed is stored as that call listed it last,
unless a later call listed the item again. -/
theorem Ingested.holds (collisionFree : Function.Injective Blake3.hashHex) {cap : Nat}
    {cap_pos : 0 < cap} {before after : List (Entry Fields)} {call : IngestCall Fields}
    {summary : IngestSummary} {s : MemStore}
    (ran : Ingested cap cap_pos (before ++ (call, .ok (some summary)) :: after) s)
    (apart : KeptApart (before ++ (call, .ok (some summary)) :: after))
    {front back : List (Ticket Fields)} {ticket : Ticket Fields}
    (listed : call.listed = front ++ ticket :: back)
    (last : ∀ later ∈ back, later.item call.scope ≠ ticket.item call.scope)
    (final : ticket.item call.scope ∉ itemsOf after) : Holds s call.scope ticket := by
  obtain ⟨s₁, s₂, done, kept⟩ := ran.split collisionFree
  have own : ∀ t ∈ call.listed,
      t.item call.scope ∈ itemsOf (before ++ (call, .ok (some summary)) :: after) :=
    fun t member => mem_itemsOf (List.mem_append_right before List.mem_cons_self)
      (List.mem_map_of_mem member)
  have ticket_listed : ticket ∈ call.listed := by simp [listed]
  have stored := (done.ended summary rfl).2
  refine (stored front ticket back listed fun later member => ?_).of_getRaw ?_
  · exact apart.key_ne (own later (by simp [listed, member])) (own ticket ticket_listed)
      (last later member)
  · refine kept _ fun x member => ?_
    apply apart.key_ne (own ticket ticket_listed)
    · rw [itemsOf, List.flatMap_append, List.flatMap_cons]
      exact List.mem_append_right _ (List.mem_append_right _ member)
    · rintro rfl
      exact final member

omit [Lowercase] [TicketSerde Fields] [Blake3] in
/-- The last ticket of a list for an item. -/
theorem exists_last {tickets : List (Ticket Fields)} {scope : Option String} {x : ItemId}
    (listed : ∃ t ∈ tickets, t.item scope = x) :
    ∃ front last back, tickets = front ++ last :: back ∧ last.item scope = x ∧
      ∀ later ∈ back, later.item scope ≠ x := by
  induction tickets with
  | nil =>
    obtain ⟨t, member, -⟩ := listed
    exact absurd member List.not_mem_nil
  | cons first rest ih =>
    by_cases again : ∃ t ∈ rest, t.item scope = x
    · obtain ⟨front, last, back, rfl, own, final⟩ := ih again
      exact ⟨first :: front, last, back, rfl, own, final⟩
    · obtain ⟨t, member, own⟩ := listed
      push Not at again
      rcases List.mem_cons.mp member with rfl | later
      · exact ⟨[], t, rest, rfl, own, again⟩
      · exact absurd own (again t later)

/-- A source that lists each item with one content, and was ingested before, is stored. -/
theorem Ingested.holds_all (collisionFree : Function.Injective Blake3.hashHex) {cap : Nat}
    {cap_pos : 0 < cap} {before after : List (Entry Fields)} {call : IngestCall Fields}
    {summary : IngestSummary} {s : MemStore}
    (ran : Ingested cap cap_pos (before ++ (call, .ok (some summary)) :: after) s)
    (apart : KeptApart (before ++ (call, .ok (some summary)) :: after))
    (consistent : call.Consistent) (final : ∀ x ∈ call.items, x ∉ itemsOf after) :
    ∀ ticket ∈ call.listed, Holds s call.scope ticket := by
  intro ticket member
  obtain ⟨front, t, back, split, same, last⟩ := @exists_last _ _ call.scope _ ⟨ticket, member, rfl⟩
  have t_listed : t ∈ call.listed := by simp [split]
  have held := ran.holds collisionFree apart split (by rwa [same])
    (final _ (List.mem_map_of_mem t_listed))
  obtain ⟨r, stored, encoded⟩ := held
  refine ⟨r, ?_, ?_⟩
  · rw [recordKey, ← same]
    exact stored
  · rw [consistent ticket member t t_listed same.symm]
    exact encoded

/-- The keys of two different items differ unless the items are spelled alike. Where no
items of a run are, every finished call leaves its items stored as it listed them last
until another call lists them, a call leaves every other item of the run as it is, and
ingesting a source again that has not changed writes nothing. -/
theorem ingest_keeps_apart (collisionFree : Function.Injective Blake3.hashHex) :
    (∀ x y : ItemId, x ≠ y → (x.key ≠ y.key ↔ ¬ SpelledAlike x y)) ∧
    ∀ (cap : Nat) (cap_pos : 0 < cap) (history : List (Entry Fields)) (s : MemStore),
      Ingested cap cap_pos history s → KeptApart history →
      (∀ before call summary after, history = before ++ (call, .ok (some summary)) :: after →
        ∀ front ticket back, call.listed = front ++ ticket :: back →
          (∀ later ∈ back, later.item call.scope ≠ ticket.item call.scope) →
          ticket.item call.scope ∉ itemsOf after → Holds s call.scope ticket) ∧
      ∀ call s' result, Program.Runs Answers s (ingest call) s' result →
        KeptApart (history ++ [(call, result)]) →
        (∀ x ∈ itemsOf history, x ∉ call.items → s'.getRaw x.key = s.getRaw x.key) ∧
        (call.Consistent → ∀ before earlier summary after,
          history = before ++ (earlier, .ok (some summary)) :: after →
          earlier.scope = call.scope → earlier.answers = call.answers →
          (∀ x ∈ call.items, x ∉ itemsOf after) →
            s' = s ∧ result = .ok (some { unchanged := call.listed.length })) := by
  refine ⟨fun x y _ => not_congr (ItemId.key_eq_iff x y), ?_⟩
  intro cap cap_pos history s ran apart
  constructor
  · rintro before call summary after rfl front ticket back listed last final
    exact ran.holds collisionFree apart listed last final
  · intro call s' result next apart'
    have done := ingest_done collisionFree (ran.only collisionFree) next
    constructor
    · intro x x_listed own
      refine done.getRaw_eq fun y member => ?_
      apply apart'.key_ne
      · rw [itemsOf, List.flatMap_append]
        exact List.mem_append_left _ x_listed
      · exact mem_itemsOf (List.mem_append_right history List.mem_cons_self) member
      · rintro rfl
        exact own member
    · rintro consistent before ⟨author, scope, answers⟩ summary after rfl rfl rfl final
      obtain ⟨s₁, s₂, earlier, -⟩ := ran.split collisionFree
      obtain ⟨ends, -⟩ := earlier.ended summary rfl
      exact done.again ends (ran.holds_all collisionFree apart consistent final)

end

/-! ## Two connections -/

/-- The run in which every call is answered at time zero. -/
theorem runs_exec [Blake3] {α : Type} (s : MemStore) (p : IngestProgram α) :
    Program.Runs Answers s p (p.exec (fun s req => MemStore.serve s 0 req) s).1
      (p.exec (fun s req => MemStore.serve s 0 req) s).2 := by
  induction p generalizing s with
  | done value => exact .done s value
  | fail e => exact .fail s e
  | ask req next ih => exact .ask ⟨0, rfl, rfl⟩ (ih _ _)

section Sample

/-- Names are lower case already, and every ticket is spelled alike. -/
@[reducible] def plainNames : Lowercase := ⟨id⟩

@[reducible] def plainTickets : TicketSerde Unit := ⟨fun _ => .ok (asBytes "v0")⟩

attribute [local instance] sampleBlake3 plainNames plainTickets

/-- A source with one ticket on one page, over a connection of its own. -/
def boardCall (scope : String) : IngestCall Unit :=
  { author := "sync", scope := some scope, answers := [.ok ⟨[⟨.gitHub, "o/r#1", ()⟩], none⟩] }

/-- Calls of the two connections list two items, which are not spelled alike. -/
theorem boards_apart {history : List (Entry Unit)}
    (calls : ∀ entry ∈ history, entry.1 = boardCall "board" ∨ entry.1 = boardCall "attic") :
    KeptApart history := by
  have listed : ∀ x ∈ itemsOf history,
      x = ⟨.gitHub, some "board", "o/r#1"⟩ ∨ x = ⟨.gitHub, some "attic", "o/r#1"⟩ := by
    intro x member
    obtain ⟨entry, called, item⟩ := List.mem_flatMap.mp member
    rcases calls entry called with same | same
    · rw [same] at item
      exact .inl (List.mem_singleton.mp item)
    · rw [same] at item
      exact .inr (List.mem_singleton.mp item)
  intro x x_listed y y_listed other
  rw [← ItemId.key_eq_iff]
  rcases listed x x_listed with rfl | rfl <;> rcases listed y y_listed with rfl | rfl
  · exact absurd rfl other
  · decide
  · decide
  · exact absurd rfl other

/-- The board and the attic are ingested, one after the other. -/
def boardsHistory : List (Entry Unit) :=
  [(boardCall "board", .ok (some { imported := 1 })),
    (boardCall "attic", .ok (some { imported := 1 }))]

theorem boards_imported : ∃ s, Ingested 1 Nat.one_pos boardsHistory s := by
  let s₁ := ((ingest (boardCall "board")).exec (fun s req => MemStore.serve s 0 req)
    (.empty 1 Nat.one_pos)).1
  have first := runs_exec (.empty 1 Nat.one_pos) (ingest (boardCall "board"))
  have second := runs_exec s₁ (ingest (boardCall "attic"))
  have imported : ((ingest (boardCall "board")).exec (fun s req => MemStore.serve s 0 req)
      (.empty 1 Nat.one_pos)).2 = .ok (some { imported := 1 }) := by decide +kernel
  have imported' : ((ingest (boardCall "attic")).exec (fun s req => MemStore.serve s 0 req)
      s₁).2 = .ok (some { imported := 1 }) := by decide +kernel
  rw [imported] at first
  rw [imported'] at second
  exact ⟨_, .call (.call .start first) second⟩

/-- Both boards have their ticket, and the second ingest of the first one writes nothing. -/
theorem boards_again : ∃ s, Ingested 1 Nat.one_pos boardsHistory s ∧
    Holds s (some "board") ⟨.gitHub, "o/r#1", ()⟩ ∧ Holds s (some "attic") ⟨.gitHub, "o/r#1", ()⟩ ∧
      ∀ s' result, Program.Runs Answers s (ingest (boardCall "board")) s' result →
        s' = s ∧ result = .ok (some { unchanged := 1 }) := by
  obtain ⟨s, ran⟩ := boards_imported
  have apart : KeptApart boardsHistory := boards_apart (by simp [boardsHistory])
  have elsewhere : (⟨.gitHub, some "board", "o/r#1"⟩ : ItemId) ∉
      itemsOf [((boardCall "attic", .ok (some { imported := 1 })) : Entry Unit)] := by
    decide
  obtain ⟨holds, next⟩ := (ingest_keeps_apart sampleHashHex_injective).2 1 Nat.one_pos _ s ran apart
  refine ⟨s, ran, ?_, ?_, fun s' result again => ?_⟩
  · exact holds [] _ _ [_] rfl [] _ [] rfl (by simp) elsewhere
  · exact holds [_] _ _ [] rfl [] _ [] rfl (by simp) (by simp [itemsOf])
  · have same := (next (boardCall "board") s' result again (boards_apart (by simp [boardsHistory]))).2
    refine same ?_ [] (boardCall "board") _ [_] rfl rfl rfl ?_
    · intro ticket member other member' same
      rfl
    · intro x member
      rw [List.mem_singleton.mp member]
      exact elsewhere

/-- A slash in a scope, or in a uid, lets two boards share a key. -/
theorem boards_collide :
    ¬ ∀ x y : ItemId, x ≠ y → x.key ≠ y.key := by
  intro apart
  exact apart ⟨.gitHub, some "a", "b/c"⟩ ⟨.gitHub, some "a/b", "c"⟩ (by decide) (by decide)

end Sample

end Gonzalo.Tickets
