import Gonzalo.Core.PurgeRace
import Gonzalo.Core.Undelete

/-!
# The served purge

`Service::purge` of `gonzalo-server/src/service.rs`. The service reads the raw record,
refuses to remove a live one whose revision matches, and otherwise lets the store purge
by revision. The two are separate calls, and the store's purge does not look at kinds.
-/

set_option autoImplicit false

namespace Gonzalo.Server
open Gonzalo.Core Gonzalo.Lib

/-- The refusal of a purge of a live record. -/
def liveRefusal (key : RecordKey) (current : Record) : CoreError :=
  .invalid (key.display ++ " is live at revision " ++ toString current.revision.counter ++
    "; purge only discards an existing tombstone. To remove the record use `gonzalo delete`: " ++
    "it keeps a restore window for manifest kinds, and purging that tombstone would discard it.")

/-- `Service::purge`. -/
def purge (key : RecordKey) (expected : Revision) : StoreProgram DeleteResult := do
  match ← StoreProgram.getRaw key with
  | none => StoreProgram.purge key expected
  | some current =>
    if !current.isTombstone && current.revision = expected then .fail (liveRefusal key current)
    else StoreProgram.purge key expected

/-- What the service read is no live record of the revision it is to purge. -/
def Authorised (expected : Revision) (found : Option Record) : Prop :=
  ∀ c, found = some c → c.isTombstone = false → c.revision ≠ expected

/-- After a read that lets the purge through, no live record of its revision is stored. -/
def noLiveMatch (expected : Revision) : Reliance where
  safe _ found r := Authorised expected found → r.isTombstone = false → r.revision ≠ expected
  own _ r authorised live := authorised r rfl live

theorem wp_purge (key : RecordKey) (expected : Revision)
    (v : Option (RecordKey × Option Record)) :
    Wp (Reliance.contract fun _ found rev => Authorised expected found ∧ rev = expected)
      (fun _ _ => True) v (purge key expected) := by
  refine ⟨trivial, fun answer v' turned => ?_⟩
  rcases answer with e | _ | current
  · exact trivial
  · cases turned
    refine ⟨⟨none, rfl, ?_, rfl⟩, fun answer v' _ => ?_⟩
    · rintro c ⟨⟩
    · cases answer <;> exact trivial
  · cases turned
    change Wp _ _ _ (ite _ _ _)
    split
    · exact trivial
    next other =>
      refine ⟨⟨_, rfl, ?_, rfl⟩, fun answer v' _ => ?_⟩
      · rintro c ⟨⟩ live same
        exact other (by simp [live, same])
      · cases answer <;> exact trivial

section Runs

variable [Blake3]

/-- A call that files no live record of the revision to be purged at the key the service
has read. -/
def NoLiveMatch (expected : Revision) (w : Watched) (nowMs : Int) (req : StoreReq) : Prop :=
  ∀ key found filed, w.read = some (key, found) → Authorised expected found →
    w.store.files nowMs req = some filed → filed.key = key → filed.isTombstone = false →
    filed.revision ≠ expected

/-- Any store, any calls of other clients of which none files a live record of the
requested revision once the service has read the key: whatever the store's purge
removes is a tombstone. -/
theorem purge_removes_tombstone {key : RecordKey} {expected : Revision}
    {c₀ c : WatchedPool DeleteResult} (idle : c₀.clients () = none)
    (unread : c₀.world.read = none)
    (run : Pool.Reaches (Watched.rules (· = purge key expected) (NoLiveMatch expected)) c₀ c)
    {key' : RecordKey} {named : Revision}
    {next : (StoreReq.purge key' named).Ans → StoreProgram DeleteResult}
    (pending : c.clients () = some (.ask (.purge key' named) next)) {r : Record}
    (stored : c.world.store.getRaw key' = some r) (same : r.revision = named) :
    r.isTombstone = true := by
  have keeps : ∀ w nowMs req, NoLiveMatch expected w nowMs req →
      (noLiveMatch expected).Keeps w nowMs req := by
    rintro w nowMs req noMatch key found filed read files own authorised live
    exact noMatch key found filed read authorised files own live
  obtain ⟨found, ⟨authorised, rfl⟩, safe⟩ := Reliance.purge_pending keeps
    (fun p v same => same ▸ wp_purge key expected v) idle unread run pending
  cases dead : r.isTombstone with
  | true => rfl
  | false => exact absurd same (safe r stored authorised dead)

end Runs

/-! ## A record that arrives after the check -/

section Raced

attribute [local instance] sampleBlake3

def firstRevision : Revision := ⟨0, .of (asBytes "v0")⟩

/-- An empty store. -/
def emptyStore : WatchedPool DeleteResult := ⟨⟨.empty 32 cap32_pos, none⟩, fun _ => none⟩

/-- The service has found nothing at the key. -/
def foundAbsent : WatchedPool DeleteResult :=
  emptyStore.startSteps (purge rustKey firstRevision) 0 1

/-- Then the topic is created. -/
def createdMeanwhile : WatchedPool DeleteResult :=
  foundAbsent.otherCalls
    [(0, .put (.create rustKey .topic (.inline (asBytes "v0")) (.new (.new "ada") "example")) none)]

/-- The request removes the live record. -/
theorem purge_removes_live :
    ∃ next r, Pool.Reaches (Watched.rules (· = purge rustKey firstRevision) fun _ _ _ => True)
        emptyStore createdMeanwhile ∧
      createdMeanwhile.clients () = some (.ask (.purge rustKey firstRevision) next) ∧
      createdMeanwhile.world.store.getRaw rustKey = some r ∧ r.isTombstone = false ∧
      (createdMeanwhile.world.store.purge rustKey firstRevision).1.getRaw rustKey = none := by
  have absent : Pool.Reaches (Watched.rules (· = purge rustKey firstRevision) fun _ _ _ => True)
      emptyStore foundAbsent := emptyStore.reaches_startSteps _ _ 0 1
  exact ⟨_, _, absent.trans (foundAbsent.reaches_otherCalls _), rfl, rfl, rfl, rfl⟩

/-- A store that holds a tombstone. -/
def tombstoneStored : WatchedPool DeleteResult :=
  ⟨⟨(MemStore.empty 32 cap32_pos).insert (tombstoneOf (topicAt rustKey 0 "v0") 0 32 none), none⟩,
    fun _ => none⟩

/-- The service has found it. -/
def foundTombstone : WatchedPool DeleteResult :=
  tombstoneStored.startSteps (purge rustKey ⟨1, tombstoneHash⟩) 0 1

/-- A replica files the tombstone once more, stamped by another clock. -/
def stampedAgain : WatchedPool DeleteResult :=
  foundTombstone.otherCalls [(7, .putRaw (tombstoneOf (topicAt rustKey 0 "v0") 7 32 none)
    (some ⟨1, tombstoneHash⟩))]

/-- What the request removes is the tombstone that a replica has filed in between. -/
theorem tombstoneStored_purged :
    ∃ next r, stampedAgain.clients () = some (.ask (.purge rustKey ⟨1, tombstoneHash⟩) next) ∧
      stampedAgain.world.store.getRaw rustKey = some r ∧ r.isTombstone = true := by
  have found : Pool.Reaches (Watched.rules (· = purge rustKey ⟨1, tombstoneHash⟩)
      (NoLiveMatch ⟨1, tombstoneHash⟩)) tombstoneStored foundTombstone :=
    tombstoneStored.reaches_startSteps _ _ 0 1
  have run : Pool.Reaches (Watched.rules (· = purge rustKey ⟨1, tombstoneHash⟩)
      (NoLiveMatch ⟨1, tombstoneHash⟩)) tombstoneStored stampedAgain := by
    refine found.trans (foundTombstone.reaches_otherCall ?_)
    intro key read filed _ authorised files own live
    cases files
    cases live
  obtain ⟨next, pending⟩ : ∃ next, stampedAgain.clients () =
      some (.ask (.purge rustKey ⟨1, tombstoneHash⟩) next) := ⟨_, rfl⟩
  obtain ⟨r, stored, named⟩ : ∃ r, stampedAgain.world.store.getRaw rustKey = some r ∧
      r.revision = ⟨1, tombstoneHash⟩ := ⟨_, rfl, rfl⟩
  exact ⟨next, r, pending, stored, purge_removes_tombstone rfl rfl run pending stored named⟩

end Raced

end Gonzalo.Server
