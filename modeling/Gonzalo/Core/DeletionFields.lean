import Gonzalo.Core.Restorable

/-!
# The deletion fields of live records

`deleted_at`, `deleted_blob` and `deleted_kind` are for tombstones only. Of the branches of
`plan_put` in `gonzalo-core/src/tombstone.rs` only re-creation clears what a client put into
them; a create at an absent key and an update store the fields as they come. Over runs of
the consumer surface and of undelete: what is stored as live is clean as long as no client
puts such fields through one of these two, and every tombstone comes from a delete.
-/

set_option autoImplicit false

namespace Gonzalo.Core
open Gonzalo.Lib

/-- No deletion field is set. -/
structure Record.Undeleted (self : Record) : Prop where
  at_none : self.deletedAt = none
  blob_none : self.deletedBlob = none
  kind_none : self.deletedKind = none

instance (r : Record) : Decidable r.Undeleted :=
  decidable_of_iff (r.deletedAt = none ∧ r.deletedBlob = none ∧ r.deletedKind = none)
    ⟨fun ⟨a, b, c⟩ => ⟨a, b, c⟩, fun ⟨a, b, c⟩ => ⟨a, b, c⟩⟩

/-- A put that creates at an absent key or updates the live record it expects. -/
def PassesThrough (s : MemStore) (record : Record) (expected : Option Revision) : Prop :=
  record.isTombstone = false ∧
    (s.getRaw record.key = none ∧ expected = none ∨
      ∃ c, s.getRaw record.key = some c ∧ c.isTombstone = false ∧ expected = some c.revision)

section Files

variable [Blake3]

/-- The plan behind what a put files. -/
theorem planPut_of_files {s : MemStore} {nowMs : Int} {record r : Record}
    {expected : Option Revision} (filed : s.files nowMs (.put record expected) = some r) :
    planPut (s.getRaw record.key) record expected nowMs s.cap = .write r := by
  simp only [MemStore.files] at filed
  cases planned : planPut (s.getRaw record.key) record expected nowMs s.cap with
  | write w =>
    rw [planned] at filed
    cases filed
    rfl
  | _ =>
    rw [planned] at filed
    cases filed

/-- The plan behind what a delete files. -/
theorem planDelete_of_files {s : MemStore} {nowMs : Int} {key : RecordKey} {r : Record}
    {expected : Option Revision} {author : Option Identity}
    (filed : s.files nowMs (.deleteAs key expected author) = some r) :
    planDelete (s.getRaw key) expected nowMs s.cap author = .write r := by
  simp only [MemStore.files] at filed
  cases planned : planDelete (s.getRaw key) expected nowMs s.cap author with
  | write w =>
    rw [planned] at filed
    cases filed
    rfl
  | _ =>
    rw [planned] at filed
    cases filed

end Files

section Runs

variable [Blake3] [Serde]

/-- A consumer put that `allowed` admits, a delete, a whole undelete with any of its calls
failing, or a change of the blobs alone. -/
inductive EditStep (allowed : MemStore → Record → Option Revision → Prop) (w : Backend) :
    Backend → Prop
  | put (nowMs : Int) (record : Record) (expected : Option Revision)
      (admitted : allowed w.store record expected) :
      EditStep allowed w (w.after nowMs (.put record expected))
  | deleteAs (nowMs : Int) (key : RecordKey) (expected : Option Revision)
      (author : Option Identity) : EditStep allowed w (w.after nowMs (.deleteAs key expected author))
  | undelete {key : RecordKey} {nowMs : Int} {author : Option Identity} {w' : Backend}
      {result : Except CoreError Revision}
      (run : Program.Runs Backend.Served w (undelete key nowMs author) w' result) :
      EditStep allowed w w'
  | blobs (w' : Backend) (same : w'.store = w.store) : EditStep allowed w w'

abbrev EditRun (allowed : MemStore → Record → Option Revision → Prop) : Backend → Backend → Prop :=
  Relation.ReflTransGen (EditStep allowed)

/-- What the put stores carries no deletion field. -/
def NothingSmuggled (s : MemStore) (record : Record) (expected : Option Revision) : Prop :=
  PassesThrough s record expected → record.Undeleted

variable {allowed : MemStore → Record → Option Revision → Prop}

/-- Somewhere in the run from `w₀` to `w` a delete replaced a live record by the tombstone. -/
def DeletedDuring (allowed : MemStore → Record → Option Revision → Prop) (w₀ w : Backend)
    (key : RecordKey) (t : Record) : Prop :=
  ∃ (w₁ : Backend) (nowMs : Int) (expected : Option Revision) (author : Option Identity)
    (c : Record), EditRun allowed w₀ w₁ ∧ w₁.store.getRaw key = some c ∧ c.isTombstone = false ∧
      t = tombstoneOf c nowMs w₁.store.cap author ∧
      (w₁.after nowMs (.deleteAs key expected author)).store.getRaw key = some t ∧
      EditRun allowed (w₁.after nowMs (.deleteAs key expected author)) w

theorem DeletedDuring.tail {w₀ w w' : Backend} {key : RecordKey} {t : Record}
    (deleted : DeletedDuring allowed w₀ w key t) (step : EditStep allowed w w') :
    DeletedDuring allowed w₀ w' key t := by
  obtain ⟨w₁, nowMs, expected, author, c, before, stored, live, is, after, later⟩ := deleted
  exact ⟨w₁, nowMs, expected, author, c, before, stored, live, is, after, later.tail step⟩

/-- A tombstone of a live record remembers no tombstone. -/
theorem DeletedDuring.kind {w₀ w : Backend} {key : RecordKey} {t : Record}
    (deleted : DeletedDuring allowed w₀ w key t) : t.deletedKind ≠ some .tombstone := by
  obtain ⟨w₁, nowMs, expected, author, c, -, -, -, rfl, -, -⟩ := deleted
  by_cases manifest : c.kind.isManifest = true
  · intro remembered
    have kind : c.kind = .tombstone := by simpa [tombstoneOf, manifest] using remembered
    simp [kind, RecordKind.isManifest] at manifest
  · simp [tombstoneOf, manifest]

omit [Serde] in
/-- One call of an undelete that read `v` leaves every record as it was, or files the live
record that restores the tombstone it read. -/
theorem undelete_call_stores {key : RecordKey} {nowMs : Int} {author : Option Identity}
    {w w' : Backend} {v : Option Record} {req : BackendReq} {answer : req.Ans}
    (kinds : ∀ tomb, v = some tomb → tomb.isTombstone = true → tomb.deletedKind ≠ some .tombstone)
    (guarded : (undeleteContract key nowMs author).guard v req)
    (served : Backend.Served w req answer w') {k : RecordKey} {r : Record}
    (held : w'.store.getRaw k = some r) :
    w.store.getRaw k = some r ∨ r.isTombstone = false ∧ r.Undeleted := by
  induction served with
  | store at_ req =>
    cases req with
    | getRaw k' => exact Or.inl held
    | putRaw record expected =>
      obtain ⟨tomb, kind, read, dead, remembers, rfl, rfl⟩ := guarded
      rcases w.store.putRaw_effect at_ (restoredRecord key kind tomb nowMs author)
          (some tomb.revision) with ⟨-, done⟩ | ⟨same, -⟩
      · rw [MemStore.serve, done, MemStore.getRaw_insert] at held
        split at held
        · cases held
          have alive : kind ≠ .tombstone := by
            rintro rfl
            exact kinds tomb read dead remembers
          exact Or.inr ⟨decide_eq_false alive, rfl, rfl, rfl⟩
        · exact Or.inl held
      · rw [MemStore.serve, same] at held
        exact Or.inl held
    | _ => exact guarded.elim
  | putBlob content => exact guarded.elim
  | deleteBlob hash => exact guarded.elim
  | lost served e ih => exact ih guarded held
  | _ => exact Or.inl held

/-- After an undelete, every record was there before or is the live record it restored. -/
theorem undelete_stores {key : RecordKey} {nowMs : Int} {author : Option Identity}
    {w w' : Backend} {result : Except CoreError Revision}
    (run : Program.Runs Backend.Served w (undelete key nowMs author) w' result)
    (kinds : ∀ k t, w.store.getRaw k = some t → t.isTombstone = true →
      t.deletedKind ≠ some .tombstone) {k : RecordKey} {r : Record}
    (held : w'.store.getRaw k = some r) :
    w.store.getRaw k = some r ∨ r.isTombstone = false ∧ r.Undeleted := by
  let Sim (w' : Backend) (v : Option Record) : Prop :=
    (∀ k r, w'.store.getRaw k = some r →
      w.store.getRaw k = some r ∨ r.isTombstone = false ∧ r.Undeleted) ∧
    ∀ tomb, v = some tomb → tomb.isTombstone = true → tomb.deletedKind ≠ some .tombstone
  have served : ∀ (w' : Backend) (v : Option Record) (req : BackendReq) (answer : req.Ans)
      (w'' : Backend), Sim w' v → (undeleteContract key nowMs author).guard v req →
      Backend.Served w' req answer w'' →
      ∃ v', (undeleteContract key nowMs author).turn v req answer v' ∧ Sim w'' v' := by
    intro w' v req answer w'' sim guarded served
    have stores : ∀ k r, w''.store.getRaw k = some r →
        w.store.getRaw k = some r ∨ r.isTombstone = false ∧ r.Undeleted := by
      intro k r held
      rcases undelete_call_stores sim.2 guarded served held with before | restored
      · exact sim.1 k r before
      · exact Or.inr restored
    -- only an answered read changes what the undelete goes on
    have unread : Sim w'' v := ⟨stores, sim.2⟩
    cases served with
    | store at_ req =>
      cases req with
      | getRaw k' =>
        refine ⟨w'.store.getRaw k', rfl, stores, fun tomb found dead => ?_⟩
        rcases sim.1 k' tomb found with before | ⟨live, -⟩
        · exact kinds k' tomb before dead
        · rw [dead] at live
          cases live
      | putRaw record expected => exact ⟨v, rfl, unread⟩
      | _ => exact guarded.elim
    | failed req e => cases req with
      | store req => cases req <;> exact ⟨v, rfl, unread⟩
      | _ => exact ⟨v, rfl, unread⟩
    | @lost req _ _ _ e => cases req with
      | store req => cases req <;> exact ⟨v, rfl, unread⟩
      | _ => exact ⟨v, rfl, unread⟩
    | _ => exact ⟨v, rfl, unread⟩
  obtain ⟨v, ended, -⟩ := run.sound Sim served ⟨fun k r held => Or.inl held, by simp⟩
    (wp_undelete (v := none))
  exact ended.1 k r held

/-- Every stored tombstone comes from a delete of the run, whatever is put. -/
theorem tombstone_deleted {w₀ w : Backend} (fresh : ∀ key, w₀.store.getRaw key = none)
    (run : EditRun allowed w₀ w) {key : RecordKey} {t : Record}
    (stored : w.store.getRaw key = some t) (dead : t.isTombstone = true) :
    DeletedDuring allowed w₀ w key t := by
  induction run generalizing key t with
  | refl =>
    rw [fresh key] at stored
    cases stored
  | @tail w w' before step ih =>
    cases step with
    | put nowMs record expected admitted =>
      rcases MemStore.getRaw_serve stored with earlier | ⟨filed, -⟩
      · exact (ih earlier dead).tail (.put nowMs record expected admitted)
      · -- a consumer put files live records only
        obtain ⟨live, ⟨-, -, rfl⟩ | ⟨c, -, -, -, -, rfl⟩ | ⟨c, -, -, -, rfl⟩⟩ :=
          planPut_write (planPut_of_files filed) <;>
        exact absurd (live.symm.trans dead) Bool.false_ne_true
    | deleteAs nowMs key' expected author =>
      rcases MemStore.getRaw_serve stored with earlier | ⟨filed, own⟩
      · exact (ih earlier dead).tail (.deleteAs nowMs key' expected author)
      · obtain ⟨c, was, live, -, rfl⟩ := planDelete_write (planDelete_of_files filed)
        have here : key' = key := (MemStore.key_of_getRaw was).symm.trans own
        subst here
        exact ⟨w, nowMs, expected, author, c, before, was, live, rfl, stored, .refl⟩
    | undelete undeleted =>
      have kinds : ∀ k t, w.store.getRaw k = some t → t.isTombstone = true →
          t.deletedKind ≠ some .tombstone := fun k t held dead => (ih held dead).kind
      rcases undelete_stores undeleted kinds stored with earlier | ⟨live, -⟩
      · exact (ih earlier dead).tail (.undelete undeleted)
      · rw [dead] at live
        cases live
    | blobs w' same =>
      rw [same] at stored
      exact (ih stored dead).tail (.blobs w' same)

omit [Serde] in
/-- What a put files carries deletion fields only if they passed through. -/
theorem put_undeleted {s : MemStore} {nowMs : Int} {record r : Record} {expected : Option Revision}
    (clean : NothingSmuggled s record expected)
    (filed : s.files nowMs (.put record expected) = some r) : r.Undeleted := by
  obtain ⟨live, ⟨absent, none_, rfl⟩ | ⟨t, -, -, -, -, rfl⟩ | ⟨c, was, alive, fresh, rfl⟩⟩ :=
    planPut_write (planPut_of_files filed)
  · obtain ⟨a, b, c⟩ := clean ⟨live, Or.inl ⟨absent, none_⟩⟩
    exact ⟨a, b, c⟩
  · exact ⟨rfl, rfl, rfl⟩
  · obtain ⟨a, b, c⟩ := clean ⟨live, Or.inr ⟨c, was, alive, fresh⟩⟩
    exact ⟨a, b, c⟩

/-- In every run from an empty store whose creates and updates carry no deletion field, no
live record has one, and every tombstone was made by a delete of the run. -/
theorem live_records_undeleted {w₀ w : Backend} (fresh : ∀ key, w₀.store.getRaw key = none)
    (run : EditRun NothingSmuggled w₀ w) (key : RecordKey) (r : Record)
    (stored : w.store.getRaw key = some r) :
    (r.isTombstone = false → r.Undeleted) ∧
      (r.isTombstone = true → DeletedDuring NothingSmuggled w₀ w key r) := by
  refine ⟨fun live => ?_, tombstone_deleted fresh run stored⟩
  induction run generalizing key r with
  | refl =>
    rw [fresh key] at stored
    cases stored
  | @tail w w' before step ih =>
    cases step with
    | put nowMs record expected clean =>
      rcases MemStore.getRaw_serve stored with earlier | ⟨filed, -⟩
      · exact ih key r earlier live
      · exact put_undeleted clean filed
    | deleteAs nowMs key' expected author =>
      rcases MemStore.getRaw_serve stored with earlier | ⟨filed, -⟩
      · exact ih key r earlier live
      · obtain ⟨c, -, -, -, rfl⟩ := planDelete_write (planDelete_of_files filed)
        cases live
    | undelete undeleted =>
      have kinds : ∀ k t, w.store.getRaw k = some t → t.isTombstone = true →
          t.deletedKind ≠ some .tombstone := fun k t held dead =>
        (tombstone_deleted fresh before held dead).kind
      rcases undelete_stores undeleted kinds stored with earlier | ⟨-, clean⟩
      · exact ih key r earlier live
      · exact clean
    | blobs w' same =>
      rw [same] at stored
      exact ih key r stored live

end Runs

/-! ## A field that passes through -/

section Smuggled

attribute [local instance] sampleBlake3 plainSerde

/-- A topic that claims a deletion. -/
def smuggledTopic : Record := { topicAt rustKey 0 "v0" with deletedAt := some 3 }

def emptyBackend : Backend := ⟨MemStore.empty 32 cap32_pos, ∅, []⟩

/-- Created at an absent key it is live and keeps its deletion time. -/
theorem created_keeps_deletion_time :
    ∃ w r, EditRun (fun _ _ _ => True) emptyBackend w ∧ w.store.getRaw rustKey = some r ∧
      r.isTombstone = false ∧ r.deletedAt = some 3 :=
  ⟨emptyBackend.after 5 (.put smuggledTopic none), _, .single (.put 5 smuggledTopic none trivial),
    rfl, rfl, rfl⟩

/-- A clean topic, deleted and created again with a smuggled deletion time. -/
theorem recreated_undeleted :
    ∃ w r, EditRun NothingSmuggled emptyBackend w ∧ w.store.getRaw rustKey = some r ∧
      r.isTombstone = false ∧ r.Undeleted := by
  have created : NothingSmuggled emptyBackend.store (topicAt rustKey 0 "v0") none :=
    fun _ => ⟨rfl, rfl, rfl⟩
  have recreated : NothingSmuggled ((emptyBackend.after 5 (.put (topicAt rustKey 0 "v0") none)).after
      6 (.deleteAs rustKey none none)).store smuggledTopic none := by
    rintro ⟨-, ⟨absent, -⟩ | ⟨c, -, -, fresh⟩⟩
    · cases absent
    · cases fresh
  have run : EditRun NothingSmuggled emptyBackend (((emptyBackend.after 5
      (.put (topicAt rustKey 0 "v0") none)).after 6 (.deleteAs rustKey none none)).after 7
      (.put smuggledTopic none)) :=
    ((Relation.ReflTransGen.single (.put 5 _ none created)).tail
      (.deleteAs 6 rustKey none none)).tail (.put 7 smuggledTopic none recreated)
  obtain ⟨r, stored, live⟩ : ∃ r, (((emptyBackend.after 5
      (.put (topicAt rustKey 0 "v0") none)).after 6 (.deleteAs rustKey none none)).after 7
      (.put smuggledTopic none)).store.getRaw rustKey = some r ∧ r.isTombstone = false :=
    ⟨_, rfl, rfl⟩
  exact ⟨_, r, run, stored, live, (live_records_undeleted (fun key => rfl) run rustKey r stored).1
    live⟩

end Smuggled

end Gonzalo.Core
