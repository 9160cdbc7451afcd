import Gonzalo.Core.MemStore
import Gonzalo.Lib.Refinement

/-!
# What a consumer sees

The consumer surface of a store is a plain map from key to live record with
optimistic concurrency, in which tombstones do not exist. `OccStep` is that map;
the one trace a hidden tombstone leaves in it is that a key may be reserved: a
create there is refused. `MemStore` refines the map over every sequence of consumer
and raw calls.
-/

set_option autoImplicit false

namespace Gonzalo.Core
open Gonzalo.Lib

/-- The map a consumer works with, and the keys at which a create is refused. -/
structure OccMap where
  entry : RecordKey → Option Record
  reserved : RecordKey → Prop

/-- `m'` is `m` with `key` set to `value`; which keys are reserved is not said. -/
def OccMap.Sets (m : OccMap) (key : RecordKey) (value : Option Record) (m' : OccMap) : Prop :=
  m'.entry = Function.update m.entry key value

def OccMap.Same (m m' : OccMap) : Prop := m'.entry = m.entry

/-- What a store may change in a record it accepts: its stamps and its history. -/
structure Accepted (record stored : Record) : Prop where
  key : stored.key = record.key
  kind : stored.kind = record.kind
  body : stored.body = record.body
  links : stored.links = record.links
  author : stored.metadata.author = record.metadata.author
  originSystem : stored.metadata.originSystem = record.metadata.originSystem
  labels : stored.metadata.labels = record.metadata.labels

/-- The optimistic-concurrency map, one call at a time. -/
inductive OccStep (m : OccMap) : (req : StoreReq) → req.Ans → OccMap → Prop
  | get (key : RecordKey) (m' : OccMap) (same : m.Same m') : OccStep m (.get key) (.ok (m.entry key)) m'
  | list (keys : KeyPrefix) (listed : List RecordKey) (m' : OccMap) (same : m.Same m')
      (exact_keys : ∀ key, key ∈ listed ↔ (m.entry key).isSome ∧ keys.matches key = true) :
      OccStep m (.list keys) (.ok listed) m'
  | putTombstone (record : Record) (expected : Option Revision) (m' : OccMap) (same : m.Same m')
      (dead : record.isTombstone = true) :
      OccStep m (.put record expected) (.error (.invalid consumerTombstoneRejected)) m'
  | create (record stored : Record) (m' : OccMap) (live : record.isTombstone = false)
      (absent : m.entry record.key = none) (free : ¬ m.reserved record.key)
      (accepted : Accepted record stored) (sets : m.Sets record.key (some stored) m') :
      OccStep m (.put record none) (.ok (.committed stored.revision)) m'
  | createReserved (record : Record) (m' : OccMap) (live : record.isTombstone = false)
      (absent : m.entry record.key = none) (reserved : m.reserved record.key) (same : m.Same m') :
      OccStep m (.put record none) (.error (.invalid manifestTombstoneRecreateRejected)) m'
  | update (record stored current : Record) (m' : OccMap) (live : record.isTombstone = false)
      (present : m.entry record.key = some current) (accepted : Accepted record stored)
      (revision : stored.revision = record.revision)
      (sets : m.Sets record.key (some stored) m') :
      OccStep m (.put record (some current.revision)) (.ok (.committed stored.revision)) m'
  | putMissing (record : Record) (expected : Revision) (m' : OccMap)
      (live : record.isTombstone = false) (absent : m.entry record.key = none) (same : m.Same m') :
      OccStep m (.put record (some expected)) (.error (.notFound record.key)) m'
  | putConflict (record current : Record) (expected : Option Revision) (m' : OccMap)
      (live : record.isTombstone = false) (present : m.entry record.key = some current)
      (stale : expected ≠ some current.revision) (same : m.Same m') :
      OccStep m (.put record expected) (.ok (.conflict ⟨record.key, expected, current⟩)) m'
  | delete (key : RecordKey) (current : Record) (expected : Option Revision)
      (author : Option Identity) (m' : OccMap) (present : m.entry key = some current)
      (fresh : expected = none ∨ expected = some current.revision) (sets : m.Sets key none m') :
      OccStep m (.deleteAs key expected author) (.ok .deleted) m'
  | deleteMissing (key : RecordKey) (expected : Option Revision) (author : Option Identity)
      (m' : OccMap) (absent : m.entry key = none) (same : m.Same m') :
      OccStep m (.deleteAs key expected author) (.ok .deleted) m'
  | deleteConflict (key : RecordKey) (current : Record) (expected : Revision)
      (author : Option Identity) (m' : OccMap) (present : m.entry key = some current)
      (stale : expected ≠ current.revision) (same : m.Same m') :
      OccStep m (.deleteAs key (some expected) author)
        (.ok (.conflict ⟨key, some expected, current⟩)) m'
  | getRaw (key : RecordKey) (found : Option Record) (m' : OccMap) (same : m.Same m')
      (visible : ∀ r, m.entry key = some r → found = some r) :
      OccStep m (.getRaw key) (.ok found) m'
  | listRaw (keys : KeyPrefix) (listed : List RecordKey) (m' : OccMap) (same : m.Same m')
      (visible : ∀ key, (m.entry key).isSome → keys.matches key = true → key ∈ listed) :
      OccStep m (.listRaw keys) (.ok listed) m'
  | putRaw (record stored : Record) (expected : Option Revision) (m' : OccMap)
      (fresh : ∀ r, m.entry record.key = some r → expected = some r.revision)
      (verbatim : stored = { record with ancestors := stored.ancestors })
      (sets : m.Sets record.key (if record.isTombstone then none else some stored) m') :
      OccStep m (.putRaw record expected) (.ok (.committed record.revision)) m'
  | putRawRefused (record : Record) (expected : Option Revision)
      (answer : Except CoreError PutResult) (m' : OccMap)
      (stale : ∀ r, m.entry record.key = some r →
        expected ≠ some r.revision ∧ answer = .ok (.conflict ⟨record.key, expected, r⟩))
      (refused : ∀ rev, answer ≠ .ok (.committed rev)) (same : m.Same m') :
      OccStep m (.putRaw record expected) answer m'
  | purge (key : RecordKey) (current : Record) (m' : OccMap) (present : m.entry key = some current)
      (sets : m.Sets key none m') : OccStep m (.purge key current.revision) (.ok .deleted) m'
  | purgeConflict (key : RecordKey) (current : Record) (expected : Revision) (m' : OccMap)
      (present : m.entry key = some current) (stale : current.revision ≠ expected)
      (same : m.Same m') :
      OccStep m (.purge key expected) (.ok (.conflict ⟨key, some expected, current⟩)) m'
  | purgeHidden (key : RecordKey) (expected : Revision) (answer : Except CoreError DeleteResult)
      (m' : OccMap) (absent : m.entry key = none) (same : m.Same m') :
      OccStep m (.purge key expected) answer m'

namespace MemStore

/-- A hidden tombstone that remembers a manifest reserves its key. -/
def Reserved (s : MemStore) (key : RecordKey) : Prop :=
  ∃ t, s.getRaw key = some t ∧ t.isTombstone = true ∧
    t.deletedKind.any RecordKind.isManifest = true

/-- The map a store shows its consumers. -/
def occ (s : MemStore) : OccMap := ⟨s.get, s.Reserved⟩

theorem occ_insert_live (s : MemStore) {r : Record} (live : r.isTombstone = false) :
    s.occ.Sets r.key (some r) (s.insert r).occ := by
  funext key
  by_cases here : key = r.key
  · subst here
    rw [Function.update_self]
    exact get_eq_some.mpr ⟨by rw [getRaw_insert, if_pos rfl], live⟩
  · rw [Function.update_of_ne here]
    simp only [occ, get, getRaw_insert, if_neg (Ne.symm here)]

theorem occ_insert_dead (s : MemStore) {r : Record} (dead : r.isTombstone = true) :
    s.occ.Sets r.key none (s.insert r).occ := by
  funext key
  by_cases here : key = r.key
  · subst here
    simp [occ, get, getRaw_insert, dead, Option.filter_some]
  · rw [Function.update_of_ne here]
    simp only [occ, get, getRaw_insert, if_neg (Ne.symm here)]

theorem occ_erase (s : MemStore) (key : RecordKey) : s.occ.Sets key none (s.erase key).occ := by
  funext key'
  by_cases here : key' = key
  · subst here
    simp [occ, get, getRaw_erase]
  · rw [Function.update_of_ne here]
    simp only [occ, get, getRaw_erase, if_neg (Ne.symm here)]

theorem get_eq_none {s : MemStore} {key : RecordKey} :
    s.get key = none ↔ s.getRaw key = none ∨ ∃ t, s.getRaw key = some t ∧ t.isTombstone = true := by
  unfold get
  cases s.getRaw key with
  | none => simp
  | some r => cases dead : r.isTombstone <;> simp [Option.filter_some, dead]

theorem get_of_live {s : MemStore} {key : RecordKey} {r : Record} (stored : s.getRaw key = some r)
    (live : r.isTombstone = false) : s.get key = some r := get_eq_some.mpr ⟨stored, live⟩

theorem get_of_dead {s : MemStore} {key : RecordKey} {t : Record} (stored : s.getRaw key = some t)
    (dead : t.isTombstone = true) : s.get key = none := get_eq_none.mpr (Or.inr ⟨t, stored, dead⟩)

variable [Blake3]

/-! ## Each call is a step of the map -/

theorem put_occStep (s : MemStore) (nowMs : Int) (record : Record) (expected : Option Revision) :
    OccStep s.occ (.put record expected) (s.put nowMs record expected).2
      (s.put nowMs record expected).1.occ := by
  cases dead : record.isTombstone with
  | true =>
    have refused : s.put nowMs record expected = (s, .error (.invalid consumerTombstoneRejected)) := by
      simp [put, write, planPut, dead]
    rw [refused]
    exact .putTombstone record expected _ rfl dead
  | false =>
    cases stored : s.getRaw record.key with
    | none =>
      have absent : s.get record.key = none := get_eq_none.mpr (Or.inl stored)
      cases expected with
      | none =>
        have created : s.put nowMs record none =
            (s.insert (createdRecord record nowMs s.cap), .ok (.committed record.revision)) := by
          simp [put, write, planPut, dead, stored, createdRecord]
        rw [created]
        refine .create record (createdRecord record nowMs s.cap) _ dead absent ?_
          ⟨rfl, rfl, rfl, rfl, rfl, rfl, rfl⟩ (s.occ_insert_live dead)
        rintro ⟨t, held, -, -⟩
        simp [stored] at held
      | some rev =>
        have missing : s.put nowMs record (some rev) = (s, .error (.notFound record.key)) := by
          simp [put, write, planPut, dead, stored]
        rw [missing]
        exact .putMissing record rev _ dead absent rfl
    | some c =>
      cases gone : c.isTombstone with
      | true =>
        have absent := get_of_dead stored gone
        cases expected with
        | none =>
          cases manifest : c.deletedKind.any RecordKind.isManifest with
          | true =>
            have refused : s.put nowMs record none =
                (s, .error (.invalid manifestTombstoneRecreateRejected)) := by
              simp [put, write, planPut, dead, stored, gone, manifest]
            rw [refused]
            exact .createReserved record _ dead absent ⟨c, stored, gone, manifest⟩ rfl
          | false =>
            have recreated : s.put nowMs record none =
                (s.insert (recreatedRecord c record nowMs s.cap),
                  .ok (.committed (recreatedRecord c record nowMs s.cap).revision)) := by
              simp [put, write, planPut, dead, stored, gone, manifest]
            rw [recreated]
            refine .create record _ _ dead absent ?_ ⟨rfl, rfl, rfl, rfl, rfl, rfl, rfl⟩
              (s.occ_insert_live (r := recreatedRecord c record nowMs s.cap) dead)
            rintro ⟨t, held, -, remembers⟩
            cases stored.symm.trans held
            simp [manifest] at remembers
        | some rev =>
          have missing : s.put nowMs record (some rev) = (s, .error (.notFound record.key)) := by
            simp [put, write, planPut, dead, stored, gone]
          rw [missing]
          exact .putMissing record rev _ dead absent rfl
      | false =>
        have present := get_of_live stored gone
        by_cases fresh : expected = some c.revision
        · subst fresh
          have updated : s.put nowMs record (some c.revision) =
              (s.insert (updatedRecord c record nowMs s.cap), .ok (.committed record.revision)) := by
            simp [put, write, planPut, dead, stored, gone, updatedRecord]
          rw [updated]
          exact .update record (updatedRecord c record nowMs s.cap) c _ dead present
            ⟨rfl, rfl, rfl, rfl, rfl, rfl, rfl⟩ rfl (s.occ_insert_live dead)
        · have conflict : s.put nowMs record expected =
              (s, .ok (.conflict ⟨record.key, expected, c⟩)) := by
            simp [put, write, planPut, dead, stored, gone, fresh]
          rw [conflict]
          exact .putConflict record c expected _ dead present fresh rfl

theorem deleteAs_occStep (s : MemStore) (nowMs : Int) (key : RecordKey)
    (expected : Option Revision) (author : Option Identity) :
    OccStep s.occ (.deleteAs key expected author) (s.deleteAs nowMs key expected author).2
      (s.deleteAs nowMs key expected author).1.occ := by
  cases stored : s.getRaw key with
  | none =>
    have noop : s.deleteAs nowMs key expected author = (s, .ok .deleted) := by
      simp [deleteAs, planDelete, stored]
    rw [noop]
    exact .deleteMissing key expected author _ (get_eq_none.mpr (Or.inl stored)) rfl
  | some c =>
    have own := key_of_getRaw stored
    cases gone : c.isTombstone with
    | true =>
      have noop : s.deleteAs nowMs key expected author = (s, .ok .deleted) := by
        simp [deleteAs, planDelete, stored, gone]
      rw [noop]
      exact .deleteMissing key expected author _ (get_of_dead stored gone) rfl
    | false =>
      by_cases fresh : expected = none ∨ expected = some c.revision
      · have deleted : s.deleteAs nowMs key expected author =
            (s.insert (tombstoneOf c nowMs s.cap author), .ok .deleted) := by
          simp [deleteAs, planDelete, stored, gone, fresh]
        rw [deleted]
        subst own
        exact .delete _ c expected author _ (get_of_live stored gone) fresh
          (s.occ_insert_dead (r := tombstoneOf c nowMs s.cap author) rfl)
      · obtain ⟨expects, stale⟩ := not_or.mp fresh
        obtain ⟨rev, rfl⟩ := Option.ne_none_iff_exists'.mp expects
        have other : rev ≠ c.revision := by simpa using stale
        have conflict : s.deleteAs nowMs key (some rev) author =
            (s, .ok (.conflict ⟨key, some rev, c⟩)) := by
          simp [deleteAs, planDelete, stored, gone, other, own]
        rw [conflict]
        exact .deleteConflict key c rev author _ (get_of_live stored gone) other rfl

omit [Blake3] in
theorem putRaw_occStep (s : MemStore) (nowMs : Int) (record : Record)
    (expected : Option Revision) :
    OccStep s.occ (.putRaw record expected) (s.putRaw nowMs record expected).2
      (s.putRaw nowMs record expected).1.occ := by
  by_cases fresh : expected = (s.getRaw record.key).map Record.revision
  · subst fresh
    rw [putRaw_of_fresh]
    refine .putRaw record (rawRecord (s.getRaw record.key) record s.cap) _ _ (fun r held => ?_) rfl ?_
    · rw [(get_eq_some.mp held).1]
      rfl
    · cases dead : record.isTombstone with
      | true => exact s.occ_insert_dead (r := rawRecord (s.getRaw record.key) record s.cap) dead
      | false => exact s.occ_insert_live (r := rawRecord (s.getRaw record.key) record s.cap) dead
  · cases stored : s.getRaw record.key with
    | none =>
      rw [stored] at fresh
      obtain ⟨rev, rfl⟩ := Option.ne_none_iff_exists'.mp fresh
      have missing : s.putRaw nowMs record (some rev) = (s, .error (.notFound record.key)) := by
        simp [putRaw, write, planPutRaw, stored]
      rw [missing]
      refine .putRawRefused record _ _ _ (fun r held => ?_) (by simp) rfl
      rw [(get_eq_some.mp held).1] at stored
      cases stored
    | some c =>
      rw [stored] at fresh
      have stale : expected ≠ some c.revision := fresh
      have conflict : s.putRaw nowMs record expected =
          (s, .ok (.conflict ⟨record.key, expected, c⟩)) := by
        simp [putRaw, write, planPutRaw, stored, stale]
      rw [conflict]
      refine .putRawRefused record _ _ _ (fun r held => ?_) (by simp) rfl
      cases stored.symm.trans (get_eq_some.mp held).1
      exact ⟨stale, rfl⟩

omit [Blake3] in
/-- Removing what no consumer sees changes nothing for them. -/
theorem occ_erase_hidden {s : MemStore} {key : RecordKey} (absent : s.get key = none) :
    s.occ.Same (s.erase key).occ := by
  have sets := s.occ_erase key
  unfold OccMap.Sets at sets
  rw [OccMap.Same, sets]
  exact Function.update_eq_self_iff.mpr absent.symm

omit [Blake3] in
theorem purge_occStep (s : MemStore) (key : RecordKey) (expected : Revision) :
    OccStep s.occ (.purge key expected) (s.purge key expected).2 (s.purge key expected).1.occ := by
  cases stored : s.getRaw key with
  | none =>
    have noop : s.purge key expected = (s, .ok .deleted) := by simp [purge, planPurge, stored]
    rw [noop]
    exact .purgeHidden key expected _ _ (get_eq_none.mpr (Or.inl stored)) rfl
  | some c =>
    have own := key_of_getRaw stored
    by_cases fresh : c.revision = expected
    · have removed : s.purge key expected = (s.erase key, .ok .deleted) := by
        simp [purge, planPurge, stored, fresh]
      rw [removed]
      cases gone : c.isTombstone with
      | true =>
        have absent := get_of_dead stored gone
        exact .purgeHidden key expected _ _ absent (occ_erase_hidden absent)
      | false =>
        subst fresh
        exact .purge key c _ (get_of_live stored gone) (s.occ_erase key)
    · have conflict : s.purge key expected = (s, .ok (.conflict ⟨key, some expected, c⟩)) := by
        simp [purge, planPurge, stored, fresh, own]
      rw [conflict]
      cases gone : c.isTombstone with
      | true => exact .purgeHidden key expected _ _ (get_of_dead stored gone) rfl
      | false => exact .purgeConflict key c expected _ (get_of_live stored gone) fresh rfl

/-- Every call of a store, answered at any time, is a step of the map. -/
theorem serve_occStep (s : MemStore) (nowMs : Int) (req : StoreReq) :
    OccStep s.occ req (s.serve nowMs req).2 (s.serve nowMs req).1.occ := by
  cases req with
  | get key => exact .get key _ rfl
  | list keys =>
    refine .list keys _ _ rfl fun key => ?_
    rw [mem_list, Option.isSome_iff_exists]
    rfl
  | put record expected => exact s.put_occStep nowMs record expected
  | deleteAs key expected author => exact s.deleteAs_occStep nowMs key expected author
  | getRaw key => exact .getRaw key _ _ rfl fun r held => (get_eq_some.mp held).1
  | listRaw keys =>
    refine .listRaw keys _ _ rfl fun key visible matched => mem_listRaw.mpr ⟨?_, matched⟩
    obtain ⟨r, held⟩ := Option.isSome_iff_exists.mp visible
    exact ⟨r, (get_eq_some.mp held).1⟩
  | putRaw record expected => exact s.putRaw_occStep nowMs record expected
  | purge key expected => exact s.purge_occStep key expected

end MemStore

/-! ## Sequences of calls -/

/-- The calls of a store, each at a time of its own. -/
def timedInterface : Interface := ⟨Int × StoreReq, fun call => call.2.Ans⟩

/-- The map does not look at the time. -/
def occSpec (m : OccMap) (call : timedInterface.Req) (answer : timedInterface.Ans call)
    (m' : OccMap) : Prop := OccStep m call.2 answer m'

variable [Blake3]

def MemStore.serveTimed (s : MemStore) (call : timedInterface.Req) :
    MemStore × timedInterface.Ans call := s.serve call.1 call.2

/-- A store, whatever it holds, answers every sequence of calls, at any times, as
the plain map does. -/
theorem memStore_refines_occ (s : MemStore) (calls : List timedInterface.Req) :
    Allows occSpec s.occ (history MemStore.serveTimed s calls).1
      (history MemStore.serveTimed s calls).2.occ :=
  allows_history (fun s call => s.serve_occStep call.1 call.2) s calls

end Gonzalo.Core
