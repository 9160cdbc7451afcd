import Gonzalo.Core.Record
import Gonzalo.Lib.Newest

/-!
# Tombstones and write planners

`gonzalo-core/src/tombstone.rs`. A store reads the current record inside its own
critical section, asks a planner what to do and carries the plan out. The plans
are pure, so every substrate reaches the same decision.

Each planner comes with one inversion lemma that says everything a plan to write
can be; the proofs about stores use these and never unfold a planner.
-/

set_option autoImplicit false

namespace Gonzalo.Core
open Gonzalo.Lib

/-- `DEFAULT_ANCESTOR_CAP`. -/
def defaultAncestorCap : Nat := 32

theorem cap32_pos : 0 < 32 := by decide

/-- `TOMBSTONE_DOMAIN`: hashed to form every tombstone's revision hash. -/
def tombstoneDomain : Bytes := asBytes "gonzalo:tombstone:v1"

/-- `validate_ancestor_cap`: a cap of zero is refused. -/
def validateAncestorCap (cap : Nat) : Except CoreError Nat :=
  if cap = 0 then .error (.backend "ancestor cap must be at least 1") else .ok cap

/-- A detected concurrent edit: the caller expected `expected`, the store holds
`current`. -/
structure Conflict where
  key : RecordKey
  expected : Option Revision
  current : Record
  deriving DecidableEq

inductive PutPlan where
  | write (record : Record)
  | conflict (conflict : Conflict)
  | notFound
  | rejected (reason : String)
  deriving DecidableEq

inductive DeletePlan where
  | write (tombstone : Record)
  | noop
  | conflict (conflict : Conflict)
  deriving DecidableEq

/-- The record a plan files. -/
def PutPlan.record? : PutPlan → Option Record
  | write record => some record
  | _ => none

/-- The tombstone a plan files. -/
def DeletePlan.record? : DeletePlan → Option Record
  | write tombstone => some tombstone
  | _ => none

inductive PurgePlan where
  | remove
  | noop
  | conflict (conflict : Conflict)
  deriving DecidableEq

/-- `CONSUMER_TOMBSTONE_REJECTED`. -/
def consumerTombstoneRejected : String := "consumer put cannot write a tombstone; use delete_as"

/-- `MANIFEST_TOMBSTONE_RECREATE_REJECTED`. -/
def manifestTombstoneRecreateRejected : String :=
  "a deleted manifest is at this key; restore it with `gonzalo undelete`, " ++
    "or discard the tombstone with `gonzalo purge`"

/-- The revision and ancestors a write over `current` descends from. -/
def Record.lineage (self : Record) : List Revision := self.revision :: self.ancestors

/-- `fold_ancestors`: everything the writer and the current record name, without
the stored revision itself, newest first, cut at `cap`. -/
def foldAncestors (stored : Revision) (incoming : List Revision) (current : Option Record)
    (cap : Nat) : List Revision :=
  newest cap (· ≠ stored) (incoming ++ (current.elim [] Record.lineage))

theorem mem_foldAncestors {stored r : Revision} {incoming : List Revision}
    {current : Option Record} {cap : Nat} (member : r ∈ foldAncestors stored incoming current cap) :
    r ≠ stored ∧ (r ∈ incoming ∨ ∃ c, current = some c ∧ r ∈ c.lineage) := by
  obtain ⟨listed, kept⟩ := mem_of_mem_newest member
  refine ⟨of_decide_eq_true kept, ?_⟩
  rcases List.mem_append.mp listed with supplied | inherited
  · exact Or.inl supplied
  · cases current with
    | none => simp at inherited
    | some c => exact Or.inr ⟨c, rfl, inherited⟩

/-- Which revisions `fold_ancestors` keeps. -/
theorem mem_foldAncestors_iff {stored r : Revision} {incoming : List Revision}
    {current : Option Record} {cap : Nat} :
    r ∈ foldAncestors stored incoming current cap ↔
      r ∈ incoming ++ current.elim [] Record.lineage ∧ r ≠ stored ∧
        ((incoming ++ current.elim [] Record.lineage).toFinset.filter
          fun y => y ≠ stored ∧ r < y).card < cap := by
  rw [foldAncestors, mem_newest_iff]
  simp only [decide_eq_true_eq]
  congr!

variable [Blake3]

/-- `tombstone_hash`: the revision hash shared by every tombstone. -/
def tombstoneHash : ContentHash := .of tombstoneDomain

/-- `tombstone_of`: the tombstone that deleting `current` produces. A manifest
keeps its body; a blob body's hash moves to `deletedBlob`. -/
def tombstoneOf (current : Record) (nowMs : Int) (cap : Nat) (author : Option Identity) : Record :=
  let revision : Revision := ⟨current.revision.counter + 1, tombstoneHash⟩
  let retainsBody := current.kind.isManifest
  { key := current.key
    kind := .tombstone
    revision := revision
    parent := some current.revision
    body := if retainsBody then current.body else .inline []
    metadata := { current.metadata with
      author := author.getD current.metadata.author
      updated := nowMs }
    links := []
    ancestors := foldAncestors revision [] (some current) cap
    deletedAt := some nowMs
    deletedBlob := match current.body with
      | .blob hash _ => some hash
      | .inline _ => none
    deletedKind := if retainsBody then some current.kind else none }

/-- The record a consumer create stores at an absent key. -/
def createdRecord (record : Record) (nowMs : Int) (cap : Nat) : Record :=
  { record with
    metadata := { record.metadata with created := nowMs, updated := nowMs }
    ancestors := foldAncestors record.revision record.ancestors none cap }

/-- The record a consumer create stores over the tombstone `t`: the chain
continues past the tombstone, and nothing of the deletion is carried over. -/
def recreatedRecord (t record : Record) (nowMs : Int) (cap : Nat) : Record :=
  let revision : Revision := ⟨t.revision.counter + 1, .of record.body.bytes⟩
  { record with
    revision := revision
    parent := some t.revision
    deletedAt := none
    deletedBlob := none
    deletedKind := none
    metadata := { record.metadata with created := nowMs, updated := nowMs }
    ancestors := foldAncestors revision record.ancestors (some t) cap }

/-- The record a consumer update stores over the live record `c`. -/
def updatedRecord (c record : Record) (nowMs : Int) (cap : Nat) : Record :=
  { record with
    metadata := { record.metadata with created := c.metadata.created, updated := nowMs }
    ancestors := foldAncestors record.revision record.ancestors (some c) cap }

/-- `plan_put`: decide a consumer `put`. A tombstone counts as absent, except that
a manifest tombstone refuses to be created over. -/
def planPut (current : Option Record) (record : Record) (expected : Option Revision)
    (nowMs : Int) (cap : Nat) : PutPlan :=
  if record.isTombstone then .rejected consumerTombstoneRejected
  else match current with
    | none =>
      if expected.isSome then .notFound else .write (createdRecord record nowMs cap)
    | some c =>
      if c.isTombstone then
        match expected with
        | none =>
          if c.deletedKind.any RecordKind.isManifest then
            .rejected manifestTombstoneRecreateRejected
          else .write (recreatedRecord c record nowMs cap)
        | some _ => .notFound
      else if expected = some c.revision then .write (updatedRecord c record nowMs cap)
      else .conflict ⟨record.key, expected, c⟩

/-- The record a replication write stores: verbatim, with the ancestors folded. -/
def rawRecord (current : Option Record) (record : Record) (cap : Nat) : Record :=
  { record with ancestors := foldAncestors record.revision record.ancestors current cap }

/-- `plan_put_raw`: decide a replication write. Never re-stamps, and a tombstone
is an ordinary record. The clock argument of the source is unused there. -/
def planPutRaw (current : Option Record) (record : Record) (expected : Option Revision)
    (_nowMs : Int) (cap : Nat) : PutPlan :=
  match current, expected with
  | none, none => .write (rawRecord none record cap)
  | none, some _ => .notFound
  | some c, expected =>
    if expected = some c.revision then .write (rawRecord (some c) record cap)
    else .conflict ⟨record.key, expected, c⟩

/-- `plan_delete`: decide a conditional delete. Deleting an absent key or a
tombstone writes nothing. -/
def planDelete (current : Option Record) (expected : Option Revision) (nowMs : Int) (cap : Nat)
    (author : Option Identity) : DeletePlan :=
  match current with
  | none => .noop
  | some c =>
    if c.isTombstone then .noop
    else if expected = none ∨ expected = some c.revision then
      .write (tombstoneOf c nowMs cap author)
    else .conflict ⟨c.key, expected, c⟩

/-- `plan_purge`: remove only the exact revision named. -/
def planPurge (current : Option Record) (expected : Revision) : PurgePlan :=
  match current with
  | none => .noop
  | some c =>
    if c.revision = expected then .remove else .conflict ⟨c.key, some expected, c⟩

/-- `reconciled_ancestors`: both revisions and both ancestor lists, folded. -/
def reconciledAncestors (stored : Revision) (a b : Record) (cap : Nat) : List Revision :=
  foldAncestors stored (a.lineage ++ b.lineage) none cap

/-- `tombstone_winner`: the higher `(counter, hash)` wins and carries both chains. -/
def tombstoneWinner (a b : Record) (cap : Nat) : Record :=
  let winner := if b.revision ≤ a.revision then a else b
  { winner with ancestors := reconciledAncestors winner.revision a b cap }

/-- `BTreeMap::extend`: on a key collision the second map wins. -/
def extendLabels (labels more : Std.ExtTreeMap String String compare) :
    Std.ExtTreeMap String String compare :=
  more.foldl (fun acc name value => acc.insert name value) labels

/-- The links of `a`, then those of `b` that are not there yet. -/
def unionLinks (a b : List RecordKey) : List RecordKey :=
  b.foldl (fun acc link => if link ∈ acc then acc else acc ++ [link]) a

/-- `reconciled_record`: the record that reconciles two diverged live records into
the merged `body`. -/
def reconciledRecord (a b : Record) (body : Body) (author : Identity) (originSystem : String)
    (cap : Nat) : Record :=
  let revision : Revision :=
    ⟨max a.revision.counter b.revision.counter + 1, .of body.bytes⟩
  { key := a.key
    kind := a.kind
    revision := revision
    parent := some (if b.revision.counter ≤ a.revision.counter then a.revision else b.revision)
    body := body
    metadata :=
      { author := author
        originSystem := originSystem
        created := min a.metadata.created b.metadata.created
        updated := max a.metadata.updated b.metadata.updated
        labels := extendLabels a.metadata.labels b.metadata.labels }
    links := unionLinks a.links b.links
    ancestors := reconciledAncestors revision a b cap
    deletedAt := none
    deletedBlob := none
    deletedKind := none }

/-! ## What a plan to write can be -/

@[simp] theorem tombstoneOf_isTombstone (c : Record) (nowMs : Int) (cap : Nat)
    (author : Option Identity) : (tombstoneOf c nowMs cap author).isTombstone = true := rfl

@[simp] theorem tombstoneOf_key (c : Record) (nowMs : Int) (cap : Nat)
    (author : Option Identity) : (tombstoneOf c nowMs cap author).key = c.key := rfl

@[simp] theorem tombstoneOf_revision (c : Record) (nowMs : Int) (cap : Nat)
    (author : Option Identity) :
    (tombstoneOf c nowMs cap author).revision = ⟨c.revision.counter + 1, tombstoneHash⟩ := rfl

omit [Blake3] in
theorem isTombstone_iff (r : Record) : r.isTombstone = true ↔ r.kind = .tombstone := by
  simp [Record.isTombstone]

/-- Everything a consumer `put` that writes can be: a create at an absent key, a
re-creation over a tombstone that retains no manifest, or an update of the live
record whose revision was expected. -/
theorem planPut_write {current : Option Record} {record w : Record} {expected : Option Revision}
    {nowMs : Int} {cap : Nat} (plan : planPut current record expected nowMs cap = .write w) :
    record.isTombstone = false ∧
      ((current = none ∧ expected = none ∧ w = createdRecord record nowMs cap) ∨
       (∃ t, current = some t ∧ t.isTombstone = true ∧
          t.deletedKind.any RecordKind.isManifest = false ∧ expected = none ∧
          w = recreatedRecord t record nowMs cap) ∨
       (∃ c, current = some c ∧ c.isTombstone = false ∧ expected = some c.revision ∧
          w = updatedRecord c record nowMs cap)) := by
  cases dead : record.isTombstone with
  | true => simp [planPut, dead] at plan
  | false =>
    refine ⟨rfl, ?_⟩
    cases current with
    | none =>
      cases expected with
      | none => exact Or.inl ⟨rfl, rfl, by simpa [planPut, dead, eq_comm] using plan⟩
      | some e => simp [planPut, dead] at plan
    | some c =>
      cases gone : c.isTombstone with
      | true =>
        cases expected with
        | some e => simp [planPut, dead, gone] at plan
        | none =>
          cases manifest : c.deletedKind.any RecordKind.isManifest with
          | true => simp [planPut, dead, gone, manifest] at plan
          | false =>
            refine Or.inr (Or.inl ⟨c, rfl, gone, manifest, rfl, ?_⟩)
            simpa [planPut, dead, gone, manifest, eq_comm] using plan
      | false =>
        by_cases fresh : expected = some c.revision
        · refine Or.inr (Or.inr ⟨c, rfl, gone, fresh, ?_⟩)
          simpa [planPut, dead, gone, fresh, eq_comm] using plan
        · simp [planPut, dead, gone, fresh] at plan

omit [Blake3] in
/-- A replication write stores exactly the given record with its ancestors folded,
at an absent key when nothing was expected, else over the expected revision. -/
theorem planPutRaw_write {current : Option Record} {record w : Record}
    {expected : Option Revision} {nowMs : Int} {cap : Nat}
    (plan : planPutRaw current record expected nowMs cap = .write w) :
    w = rawRecord current record cap ∧ expected = current.map Record.revision := by
  cases current with
  | none =>
    cases expected with
    | none => exact ⟨by simpa [planPutRaw, eq_comm] using plan, rfl⟩
    | some e => simp [planPutRaw] at plan
  | some c =>
    by_cases fresh : expected = some c.revision
    · exact ⟨by simpa [planPutRaw, fresh, eq_comm] using plan, fresh⟩
    · simp [planPutRaw, fresh] at plan

omit [Blake3] in
theorem planPutRaw_of_fresh (current : Option Record) (record : Record) (nowMs : Int) (cap : Nat) :
    planPutRaw current record (current.map Record.revision) nowMs cap =
      .write (rawRecord current record cap) := by
  cases current <;> simp [planPutRaw]

/-- A delete that writes replaces a live record by its tombstone. -/
theorem planDelete_write {current : Option Record} {w : Record} {expected : Option Revision}
    {nowMs : Int} {cap : Nat} {author : Option Identity}
    (plan : planDelete current expected nowMs cap author = .write w) :
    ∃ c, current = some c ∧ c.isTombstone = false ∧
      (expected = none ∨ expected = some c.revision) ∧ w = tombstoneOf c nowMs cap author := by
  cases current with
  | none => simp [planDelete] at plan
  | some c =>
    cases gone : c.isTombstone with
    | true => simp [planDelete, gone] at plan
    | false =>
      by_cases fresh : expected = none ∨ expected = some c.revision
      · exact ⟨c, rfl, gone, fresh, by simpa [planDelete, gone, fresh, eq_comm] using plan⟩
      · simp [planDelete, gone, fresh] at plan

omit [Blake3] in
/-- A purge removes exactly the revision it names. -/
theorem planPurge_remove {current : Option Record} {expected : Revision}
    (plan : planPurge current expected = .remove) :
    ∃ c, current = some c ∧ c.revision = expected := by
  cases current with
  | none => simp [planPurge] at plan
  | some c =>
    by_cases fresh : c.revision = expected
    · exact ⟨c, rfl, fresh⟩
    · simp [planPurge, fresh] at plan

end Gonzalo.Core
