import Gonzalo.Core.PurgeRace

/-!
# Collecting tombstones

`gonzalo-core/src/collect.rs`. A run lists the keys, reads each one and purges the
tombstones that are old enough by their revision. The revision of a tombstone is its
predecessor's counter plus a hash that all tombstones share, so a key that is purged,
re-created and deleted again in between carries the revision that was judged old.
-/

set_option autoImplicit false

namespace Gonzalo.Core
open Gonzalo.Lib

/-- What a collection run did. -/
structure CollectReport where
  purged : List RecordKey := []
  unstamped : Nat := 0
  conflicts : List RecordKey := []
  deriving DecidableEq

/-- The body of the loop of `collect`. -/
def collectKey (keys : KeyPrefix) (horizonMs : Nat) (nowMs : Int) (report : CollectReport)
    (key : RecordKey) : StoreProgram CollectReport :=
  if !keys.matches key then pure report
  else do
    match ← StoreProgram.getRaw key with
    | none => pure report
    | some record =>
      if !record.isTombstone then pure report
      else match record.deletedAt with
        | none => pure { report with unstamped := report.unstamped + 1 }
        | some deletedAt =>
          if nowMs - deletedAt < horizonMs then pure report
          else do
            match ← StoreProgram.purge key record.revision with
            | .deleted => pure { report with purged := report.purged ++ [key] }
            | .conflict _ => pure { report with conflicts := report.conflicts ++ [key] }

/-- `collect`. -/
def collect (keys : KeyPrefix) (horizonMs : Nat) (nowMs : Int) : StoreProgram CollectReport := do
  let listed ← StoreProgram.listRaw keys
  listed.foldlM (collectKey keys horizonMs nowMs) {}

/-- A tombstone stamped at least the horizon before `nowMs`. -/
def Overdue (horizonMs : Nat) (nowMs : Int) (r : Record) : Prop :=
  r.isTombstone = true ∧ ∃ deletedAt, r.deletedAt = some deletedAt ∧ horizonMs ≤ nowMs - deletedAt

/-- A run purges the revision of an overdue tombstone it has just read. -/
def CollectJudges (horizonMs : Nat) (nowMs : Int) (_key : RecordKey) (found : Option Record)
    (expected : Revision) : Prop :=
  ∃ t, found = some t ∧ Overdue horizonMs nowMs t ∧ t.revision = expected

/-- No other record of the revision of the overdue tombstone that was read has come to its
key. -/
def onlyRead (horizonMs : Nat) (nowMs : Int) : Reliance where
  safe _ found r := ∀ t, found = some t → Overdue horizonMs nowMs t →
    r.revision = t.revision → r = t
  own := by
    rintro _ _ _ ⟨⟩ _ _
    rfl

section Follows

variable {keys : KeyPrefix} {horizonMs : Nat} {nowMs : Int}

theorem wp_collectKey (v : Option (RecordKey × Option Record)) (report : CollectReport)
    (key : RecordKey) :
    Wp (Reliance.contract (CollectJudges horizonMs nowMs)) (fun _ _ => True) v
      (collectKey keys horizonMs nowMs report key) := by
  unfold collectKey
  split
  · exact trivial
  refine ⟨trivial, fun answer v' turned => ?_⟩
  cases answer with
  | error e => exact trivial
  | ok found =>
    cases turned
    cases found with
    | none => exact trivial
    | some record =>
      change Wp _ _ _ (ite _ _ _)
      split
      · exact trivial
      next dead =>
        cases stamp : record.deletedAt with
        | none => exact trivial
        | some deletedAt =>
          change Wp _ _ _ (ite _ _ _)
          split
          · exact trivial
          next old =>
            have overdue : Overdue horizonMs nowMs record :=
              ⟨by simpa using dead, deletedAt, stamp, not_lt.mp old⟩
            refine ⟨⟨_, rfl, record, rfl, overdue, rfl⟩, fun answer v' _ => ?_⟩
            rcases answer with e | ⟨⟩ | ⟨c⟩ <;> exact trivial

theorem wp_collect (v : Option (RecordKey × Option Record)) :
    Wp (Reliance.contract (CollectJudges horizonMs nowMs)) (fun _ _ => True) v
      (collect keys horizonMs nowMs) := by
  refine ⟨trivial, fun answer v' _ => ?_⟩
  cases answer with
  | error e => exact trivial
  | ok listed =>
    refine Wp.foldlM (fun _ _ _ => True) (fun key rest v'' report _ => ?_) (fun _ _ _ => trivial)
      trivial
    refine (wp_collectKey v'' report key).mono fun v result _ => ?_
    cases result <;> exact trivial

end Follows

section Runs

variable [Blake3]

/-- A call that files no other record of the revision of the overdue tombstone that the run
has read and is to purge. -/
def NoTwin (horizonMs : Nat) (runMs : Int) (w : Watched) (nowMs : Int) (req : StoreReq) : Prop :=
  ∀ key t filed, w.read = some (key, some t) → Overdue horizonMs runMs t →
    w.store.files nowMs req = some filed → filed.key = key → filed.revision = t.revision → filed = t

/-- Any store, any calls of other clients that file no twin of a tombstone while its purge is
pending: whatever the purge a run is about to make removes is a tombstone whose stamp lies
at least the horizon before the run's now. -/
theorem collect_removes_old_tombstones {keys : KeyPrefix} {horizonMs : Nat} {nowMs : Int}
    {c₀ c : WatchedPool CollectReport} (idle : c₀.clients () = none)
    (unread : c₀.world.read = none)
    (run : Pool.Reaches
      (Watched.rules (· = collect keys horizonMs nowMs) (NoTwin horizonMs nowMs)) c₀ c)
    {key : RecordKey} {expected : Revision}
    {next : (StoreReq.purge key expected).Ans → StoreProgram CollectReport}
    (pending : c.clients () = some (.ask (.purge key expected) next)) {r : Record}
    (stored : c.world.store.getRaw key = some r) (named : r.revision = expected) :
    Overdue horizonMs nowMs r := by
  have keeps : ∀ w callMs req, NoTwin horizonMs nowMs w callMs req →
      (onlyRead horizonMs nowMs).Keeps w callMs req := by
    rintro w callMs req noTwin key _ filed read files own t rfl overdue same
    exact noTwin key t filed read overdue files own same
  obtain ⟨found, ⟨t, rfl, overdue, rfl⟩, safe⟩ := Reliance.purge_pending keeps
    (fun p v same => same ▸ wp_collect v) idle unread run pending
  cases safe r stored t rfl overdue named
  exact overdue

end Runs

/-! ## A tombstone that carries the revision of an older one -/

section Twin

attribute [local instance] sampleBlake3

/-- The topic was created and deleted long ago. -/
def longDeleted : WatchedPool CollectReport where
  world := ⟨(MemStore.empty 32 cap32_pos).insert
    (tombstoneOf (topicAt rustKey 0 "v0") 0 32 none), none⟩
  clients := fun _ => none

/-- A run has read the tombstone and is about to purge it. -/
def judgedOld : WatchedPool CollectReport := longDeleted.startSteps (collect .all 500 1000) 1000 2

def tombstoneRevision : Revision := ⟨1, tombstoneHash⟩

/-- Before it does, the key is purged, created and deleted again. -/
def deletedAfresh : WatchedPool CollectReport :=
  judgedOld.otherCalls [(990, .purge rustKey tombstoneRevision),
    (990, .put (topicAt rustKey 0 "v0") none), (990, .deleteAs rustKey none none)]

/-- Or it is purged, created and edited to the text of the tombstone domain. -/
def editedToDomain : WatchedPool CollectReport :=
  judgedOld.otherCalls [(990, .purge rustKey tombstoneRevision),
    (990, .put (topicAt rustKey 0 "v0") none),
    (990, .put ((topicAt rustKey 0 "v0").update (.inline tombstoneDomain)
      (.new (.new "ada") "example")) (some (topicAt rustKey 0 "v0").revision))]

/-- The run is about to remove a tombstone made ten milliseconds ago under a horizon of
500, and in the other order of events a live record. -/
theorem collect_removes_twin :
    (∃ next r, Pool.Reaches (Watched.rules (· = collect .all 500 1000) fun _ _ _ => True)
        longDeleted deletedAfresh ∧
      deletedAfresh.clients () = some (.ask (.purge rustKey tombstoneRevision) next) ∧
      deletedAfresh.world.store.getRaw rustKey = some r ∧ r.revision = tombstoneRevision ∧
      r.isTombstone = true ∧ r.deletedAt = some 990) ∧
    ∃ next r, Pool.Reaches (Watched.rules (· = collect .all 500 1000) fun _ _ _ => True)
        longDeleted editedToDomain ∧
      editedToDomain.clients () = some (.ask (.purge rustKey tombstoneRevision) next) ∧
      editedToDomain.world.store.getRaw rustKey = some r ∧ r.revision = tombstoneRevision ∧
      r.isTombstone = false := by
  have judged : Pool.Reaches (Watched.rules (· = collect .all 500 1000) fun _ _ _ => True)
      longDeleted judgedOld := longDeleted.reaches_startSteps _ _ 1000 2
  refine ⟨⟨_, _, judged.trans (judgedOld.reaches_otherCalls _), rfl, rfl, rfl, rfl, rfl⟩,
    _, _, judged.trans (judgedOld.reaches_otherCalls _), rfl, rfl, rfl, rfl⟩

/-- A replica files the tombstone that the run has read once more. -/
def filedAgain : WatchedPool CollectReport :=
  judgedOld.otherCalls [(995, .putRaw (tombstoneOf (topicAt rustKey 0 "v0") 0 32 none)
    (some tombstoneRevision))]

/-- The tombstone that a replica has filed again in between is the old one. -/
theorem judgedOld_collects :
    ∃ next r, filedAgain.clients () = some (.ask (.purge rustKey tombstoneRevision) next) ∧
      filedAgain.world.store.getRaw rustKey = some r ∧ Overdue 500 1000 r := by
  have judged : Pool.Reaches (Watched.rules (· = collect .all 500 1000) (NoTwin 500 1000))
      longDeleted judgedOld := longDeleted.reaches_startSteps _ _ 1000 2
  have run : Pool.Reaches (Watched.rules (· = collect .all 500 1000) (NoTwin 500 1000))
      longDeleted filedAgain := by
    refine judged.trans (judgedOld.reaches_otherCall ?_)
    intro key t filed read overdue files own same
    cases read
    cases files
    rfl
  obtain ⟨next, pending⟩ : ∃ next,
      filedAgain.clients () = some (.ask (.purge rustKey tombstoneRevision) next) := ⟨_, rfl⟩
  obtain ⟨r, stored, named⟩ : ∃ r, filedAgain.world.store.getRaw rustKey = some r ∧
      r.revision = tombstoneRevision := ⟨_, rfl, rfl⟩
  exact ⟨next, r, pending, stored,
    collect_removes_old_tombstones rfl rfl run pending stored named⟩

end Twin

end Gonzalo.Core
