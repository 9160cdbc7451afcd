import Gonzalo.Core.Tombstone

/-!
# The reference store

`gonzalo-core/src/store.rs` and `memstore.rs`. Every decision of `MemStore` comes
from the planners, inside one critical section, so each call is one atomic step.
`StoreReq` are the calls of the `Store` trait, and `MemStore.serve` answers them.

A `MemStore` value carries what the code maintains: every record is filed under
its own key, and the cap passed `validate_ancestor_cap`.
-/

set_option autoImplicit false

namespace Gonzalo.Core

/-- The outcome of a conditional write. -/
inductive PutResult where
  | committed (revision : Revision)
  | conflict (conflict : Conflict)
  deriving DecidableEq

/-- The outcome of a conditional delete. -/
inductive DeleteResult where
  | deleted
  | conflict (conflict : Conflict)
  deriving DecidableEq

/-- The calls of the `Store` trait. -/
inductive StoreReq where
  | get (key : RecordKey)
  | list (keys : KeyPrefix)
  | put (record : Record) (expected : Option Revision)
  | deleteAs (key : RecordKey) (expected : Option Revision) (author : Option Identity)
  | getRaw (key : RecordKey)
  | listRaw (keys : KeyPrefix)
  | putRaw (record : Record) (expected : Option Revision)
  | purge (key : RecordKey) (expected : Revision)

def StoreReq.Ans : StoreReq → Type
  | get _ => Except CoreError (Option Record)
  | list _ => Except CoreError (List RecordKey)
  | put _ _ => Except CoreError PutResult
  | deleteAs _ _ _ => Except CoreError DeleteResult
  | getRaw _ => Except CoreError (Option Record)
  | listRaw _ => Except CoreError (List RecordKey)
  | putRaw _ _ => Except CoreError PutResult
  | purge _ _ => Except CoreError DeleteResult

/-- The answer of a call that failed. -/
def StoreReq.failed (e : CoreError) : (req : StoreReq) → req.Ans
  | get _ => .error e
  | list _ => .error e
  | put _ _ => .error e
  | deleteAs _ _ _ => .error e
  | getRaw _ => .error e
  | listRaw _ => .error e
  | putRaw _ _ => .error e
  | purge _ _ => .error e

structure MemStore where
  records : Std.ExtTreeMap RecordKey Record compare
  cap : Nat
  cap_pos : 0 < cap
  keyed : ∀ (key : RecordKey) (r : Record), records[key]? = some r → r.key = key

namespace MemStore

/-- `get_raw`: the stored record, tombstones included. -/
def getRaw (s : MemStore) (key : RecordKey) : Option Record := s.records[key]?

/-- `get`: a tombstone looks absent. -/
def get (s : MemStore) (key : RecordKey) : Option Record :=
  (s.getRaw key).filter fun r => !r.isTombstone

/-- `list`: the keys of live records under the prefix. -/
def list (s : MemStore) (keys : KeyPrefix) : List RecordKey :=
  ((s.records.toList.map Prod.snd).filter fun r => !r.isTombstone && keys.matches r.key).map
    Record.key

/-- `list_raw`: every stored key under the prefix. -/
def listRaw (s : MemStore) (keys : KeyPrefix) : List RecordKey :=
  s.records.keys.filter keys.matches

theorem key_of_getRaw {s : MemStore} {key : RecordKey} {r : Record}
    (stored : s.getRaw key = some r) : r.key = key := s.keyed key r stored

/-- File `r` under its own key. The planners keep the key of the record they are
given, so this is the `insert(key, stored)` of the source. -/
def insert (s : MemStore) (r : Record) : MemStore where
  records := s.records.insert r.key r
  cap := s.cap
  cap_pos := s.cap_pos
  keyed := by
    intro key r' stored
    rw [Std.ExtTreeMap.getElem?_insert] at stored
    split at stored
    next same =>
      cases stored
      exact compare_eq_iff_eq.mp same
    · exact s.keyed key r' stored

def erase (s : MemStore) (key : RecordKey) : MemStore where
  records := s.records.erase key
  cap := s.cap
  cap_pos := s.cap_pos
  keyed := by
    intro key' r stored
    rw [Std.ExtTreeMap.getElem?_erase] at stored
    split at stored
    · cases stored
    · exact s.keyed key' r stored

/-- An empty store with the given cap. -/
def empty (cap : Nat) (cap_pos : 0 < cap) : MemStore where
  records := ∅
  cap := cap
  cap_pos := cap_pos
  keyed := by simp

@[simp] theorem cap_insert (s : MemStore) (r : Record) : (s.insert r).cap = s.cap := rfl

@[simp] theorem cap_erase (s : MemStore) (key : RecordKey) : (s.erase key).cap = s.cap := rfl

@[simp] theorem getRaw_empty (cap : Nat) (cap_pos : 0 < cap) (key : RecordKey) :
    (empty cap cap_pos).getRaw key = none := by simp [getRaw, empty]

theorem getRaw_insert (s : MemStore) (r : Record) (key : RecordKey) :
    (s.insert r).getRaw key = if r.key = key then some r else s.getRaw key := by
  simp [getRaw, insert, Std.ExtTreeMap.getElem?_insert]

theorem getRaw_erase (s : MemStore) (key key' : RecordKey) :
    (s.erase key).getRaw key' = if key = key' then none else s.getRaw key' := by
  simp [getRaw, erase, Std.ExtTreeMap.getElem?_erase]

theorem mem_listRaw {s : MemStore} {keys : KeyPrefix} {key : RecordKey} :
    key ∈ s.listRaw keys ↔ (∃ r, s.getRaw key = some r) ∧ keys.matches key = true := by
  rw [listRaw, List.mem_filter, Std.ExtTreeMap.mem_keys, Std.ExtTreeMap.mem_iff_isSome_getElem?,
    Option.isSome_iff_exists]
  rfl

theorem get_eq_some {s : MemStore} {key : RecordKey} {r : Record} :
    s.get key = some r ↔ s.getRaw key = some r ∧ r.isTombstone = false := by
  simp [get, Option.filter_eq_some_iff]

theorem mem_list {s : MemStore} {keys : KeyPrefix} {key : RecordKey} :
    key ∈ s.list keys ↔ (∃ r, s.get key = some r) ∧ keys.matches key = true := by
  simp only [list, List.mem_map, List.mem_filter, get_eq_some]
  constructor
  · rintro ⟨r, ⟨⟨⟨k, r'⟩, listed, rfl⟩, live⟩, rfl⟩
    have stored := Std.ExtTreeMap.mem_toList_iff_getElem?_eq_some.mp listed
    have own : r'.key = k := s.keyed k r' stored
    simp only [Bool.and_eq_true, Bool.not_eq_true'] at live
    exact ⟨⟨r', by rw [own]; exact stored, live.1⟩, live.2⟩
  · rintro ⟨⟨r, stored, live⟩, matched⟩
    have own := s.key_of_getRaw stored
    refine ⟨r, ⟨⟨(key, r), Std.ExtTreeMap.mem_toList_iff_getElem?_eq_some.mpr stored, rfl⟩, ?_⟩, own⟩
    simp [live, own, matched]

variable [Blake3]

/-- The planner a write asks: `plan_put` or `plan_put_raw`. -/
abbrev PutPlanner : Type := Option Record → Record → Option Revision → Int → Nat → PutPlan

/-- `MemStore::write`. -/
def write (s : MemStore) (nowMs : Int) (record : Record) (expected : Option Revision)
    (plan : PutPlanner) : MemStore × Except CoreError PutResult :=
  match plan (s.getRaw record.key) record expected nowMs s.cap with
  | .write stored => (s.insert stored, .ok (.committed stored.revision))
  | .conflict c => (s, .ok (.conflict c))
  | .notFound => (s, .error (.notFound record.key))
  | .rejected reason => (s, .error (.invalid reason))

/-- `put`. -/
def put (s : MemStore) (nowMs : Int) (record : Record) (expected : Option Revision) :
    MemStore × Except CoreError PutResult := s.write nowMs record expected planPut

/-- `put_raw`. -/
def putRaw (s : MemStore) (nowMs : Int) (record : Record) (expected : Option Revision) :
    MemStore × Except CoreError PutResult := s.write nowMs record expected planPutRaw

/-- `delete_as`. -/
def deleteAs (s : MemStore) (nowMs : Int) (key : RecordKey) (expected : Option Revision)
    (author : Option Identity) : MemStore × Except CoreError DeleteResult :=
  match planDelete (s.getRaw key) expected nowMs s.cap author with
  | .write tombstone => (s.insert tombstone, .ok .deleted)
  | .noop => (s, .ok .deleted)
  | .conflict c => (s, .ok (.conflict c))

/-- `purge`. -/
def purge (s : MemStore) (key : RecordKey) (expected : Revision) :
    MemStore × Except CoreError DeleteResult :=
  match planPurge (s.getRaw key) expected with
  | .remove => (s.erase key, .ok .deleted)
  | .noop => (s, .ok .deleted)
  | .conflict c => (s, .ok (.conflict c))

/-- `impl Store for MemStore`: every call, answered at time `nowMs`. -/
def serve (s : MemStore) (nowMs : Int) : (req : StoreReq) → MemStore × req.Ans
  | .get key => (s, .ok (s.get key))
  | .list keys => (s, .ok (s.list keys))
  | .put record expected => s.put nowMs record expected
  | .deleteAs key expected author => s.deleteAs nowMs key expected author
  | .getRaw key => (s, .ok (s.getRaw key))
  | .listRaw keys => (s, .ok (s.listRaw keys))
  | .putRaw record expected => s.putRaw nowMs record expected
  | .purge key expected => s.purge key expected

/-! ## What a call can change -/

omit [Blake3] in
/-- A write either changes nothing or files the record the planner wrote. -/
theorem write_effect (s : MemStore) (nowMs : Int) (record : Record) (expected : Option Revision)
    (plan : PutPlanner) :
    (∃ w, plan (s.getRaw record.key) record expected nowMs s.cap = .write w ∧
        s.write nowMs record expected plan = (s.insert w, .ok (.committed w.revision))) ∨
      ((s.write nowMs record expected plan).1 = s ∧
        ∀ r, (s.write nowMs record expected plan).2 ≠ .ok (.committed r)) := by
  unfold write
  split
  next w planned => exact Or.inl ⟨w, planned, rfl⟩
  all_goals exact Or.inr ⟨rfl, by simp⟩

omit [Blake3] in
/-- A purge either changes nothing or removes the record with that revision. -/
theorem purge_effect (s : MemStore) (key : RecordKey) (expected : Revision) :
    (∃ c, s.getRaw key = some c ∧ c.revision = expected ∧
        s.purge key expected = (s.erase key, .ok .deleted)) ∨
      (s.purge key expected).1 = s := by
  unfold purge
  split
  next planned =>
    obtain ⟨c, stored, same⟩ := planPurge_remove planned
    exact Or.inl ⟨c, stored, same, rfl⟩
  all_goals exact Or.inr rfl

/-- A delete either changes nothing or replaces the live record by its tombstone. -/
theorem deleteAs_effect (s : MemStore) (nowMs : Int) (key : RecordKey)
    (expected : Option Revision) (author : Option Identity) :
    (∃ c, s.getRaw key = some c ∧ c.isTombstone = false ∧
        (expected = none ∨ expected = some c.revision) ∧
        s.deleteAs nowMs key expected author =
          (s.insert (tombstoneOf c nowMs s.cap author), .ok .deleted)) ∨
      (s.deleteAs nowMs key expected author).1 = s := by
  unfold deleteAs
  split
  next w planned =>
    obtain ⟨c, stored, live, fresh, rfl⟩ := planDelete_write planned
    exact Or.inl ⟨c, stored, live, fresh, rfl⟩
  all_goals exact Or.inr rfl

/-- A consumer put files a created, re-created or updated record, or nothing. -/
theorem put_effect (s : MemStore) (nowMs : Int) (record : Record) (expected : Option Revision) :
    (∃ w, planPut (s.getRaw record.key) record expected nowMs s.cap = .write w ∧
        s.put nowMs record expected = (s.insert w, .ok (.committed w.revision))) ∨
      ((s.put nowMs record expected).1 = s ∧
        ∀ r, (s.put nowMs record expected).2 ≠ .ok (.committed r)) :=
  s.write_effect nowMs record expected planPut

omit [Blake3] in
/-- A replication write files exactly the given record, or nothing. -/
theorem putRaw_effect (s : MemStore) (nowMs : Int) (record : Record)
    (expected : Option Revision) :
    (expected = (s.getRaw record.key).map Record.revision ∧
        s.putRaw nowMs record expected =
          (s.insert (rawRecord (s.getRaw record.key) record s.cap),
            .ok (.committed record.revision))) ∨
      ((s.putRaw nowMs record expected).1 = s ∧
        ∀ r, (s.putRaw nowMs record expected).2 ≠ .ok (.committed r)) := by
  rcases s.write_effect nowMs record expected planPutRaw with ⟨w, planned, done⟩ | unchanged
  · obtain ⟨rfl, fresh⟩ := planPutRaw_write planned
    exact Or.inl ⟨fresh, done⟩
  · exact Or.inr unchanged

omit [Blake3] in
/-- A replication write that expects what is stored commits. -/
theorem putRaw_of_fresh (s : MemStore) (nowMs : Int) (record : Record) :
    s.putRaw nowMs record ((s.getRaw record.key).map Record.revision) =
      (s.insert (rawRecord (s.getRaw record.key) record s.cap),
        .ok (.committed record.revision)) := by
  simp only [putRaw, write, planPutRaw_of_fresh]
  rfl

/-! ## The record a call files -/

/-- The record a call files in the store, when it commits a write. -/
def files (s : MemStore) (nowMs : Int) : StoreReq → Option Record
  | .put record expected =>
    (planPut (s.getRaw record.key) record expected nowMs s.cap).record?
  | .deleteAs key expected author => (planDelete (s.getRaw key) expected nowMs s.cap author).record?
  | .putRaw record expected =>
    (planPutRaw (s.getRaw record.key) record expected nowMs s.cap).record?
  | _ => none

/-- A call other than a purge changes a store by the record it files. -/
theorem serve_files (s : MemStore) (nowMs : Int) {req : StoreReq}
    (kept : ∀ key expected, req ≠ .purge key expected) :
    (s.serve nowMs req).1 = (s.files nowMs req).elim s s.insert := by
  cases req with
  | put record expected =>
    simp only [serve, put, write, files]
    cases planPut (s.getRaw record.key) record expected nowMs s.cap <;> rfl
  | putRaw record expected =>
    simp only [serve, putRaw, write, files]
    cases planPutRaw (s.getRaw record.key) record expected nowMs s.cap <;> rfl
  | deleteAs key expected author =>
    simp only [serve, deleteAs, files]
    cases planDelete (s.getRaw key) expected nowMs s.cap author <;> rfl
  | purge key expected => exact absurd rfl (kept key expected)
  | _ => rfl

/-- What is stored after a call was stored before it or was filed by it. -/
theorem getRaw_serve {s : MemStore} {nowMs : Int} {req : StoreReq} {key : RecordKey} {r : Record}
    (held : (s.serve nowMs req).1.getRaw key = some r) :
    s.getRaw key = some r ∨ (s.files nowMs req = some r ∧ r.key = key) := by
  by_cases kept : ∀ key expected, req ≠ .purge key expected
  · rw [serve_files s nowMs kept] at held
    cases filed : s.files nowMs req with
    | none =>
      rw [filed] at held
      exact Or.inl held
    | some w =>
      rw [filed, Option.elim_some, getRaw_insert] at held
      split at held
      next here =>
        cases held
        exact Or.inr ⟨rfl, here⟩
      · exact Or.inl held
  · push Not at kept
    obtain ⟨key', expected, rfl⟩ := kept
    rcases s.purge_effect key' expected with ⟨c, -, -, done⟩ | same
    · rw [serve, done, getRaw_erase] at held
      split at held
      · cases held
      · exact Or.inl held
    · rw [serve, same] at held
      exact Or.inl held

/-- A create at a key that holds nothing commits. -/
theorem put_create_commits {s : MemStore} {key : RecordKey} (absent : s.getRaw key = none)
    {kind : RecordKind} (live : kind ≠ .tombstone) (nowMs : Int) (body : Body) (metadata : Meta) :
    s.put nowMs (.create key kind body metadata) none =
      (s.insert (createdRecord (.create key kind body metadata) nowMs s.cap),
        .ok (.committed (createdRecord (.create key kind body metadata) nowMs s.cap).revision)) := by
  have at_ : s.getRaw (Record.create key kind body metadata).key = none := absent
  have alive : (Record.create key kind body metadata).isTombstone = false :=
    decide_eq_false live
  simp [put, write, planPut, at_, alive]

/-- An update of the live record a store holds commits. -/
theorem put_update_commits {s : MemStore} {key : RecordKey} {c : Record}
    (stored : s.getRaw key = some c) (live : c.isTombstone = false) (nowMs : Int) (body : Body)
    (metadata : Meta) :
    s.put nowMs (c.update body metadata) (some c.revision) =
      (s.insert (updatedRecord c (c.update body metadata) nowMs s.cap),
        .ok (.committed (updatedRecord c (c.update body metadata) nowMs s.cap).revision)) := by
  have own := key_of_getRaw stored
  have at_ : s.getRaw (c.update body metadata).key = some c := by
    rw [← stored, ← own]
    rfl
  have alive : (c.update body metadata).isTombstone = false := live
  simp [put, write, planPut, at_, alive, live]

end MemStore

end Gonzalo.Core
