import Gonzalo.Core.Undelete

/-!
# Records built on others

The ancestors and the counter a write gives to what it stores. Four write paths fold the
ancestor list in `gonzalo-core/src/tombstone.rs`, with different arguments; four places, one
of them in `undelete.rs`, add one to the counter of what they replace.
-/

set_option autoImplicit false

namespace Gonzalo.Core
open Gonzalo.Lib

section Ancestors

/-- Of `revisions`, apart from `own`, the newest `cap`, from the newest down. -/
structure NewestListed (cap : Nat) (own : Revision) (revisions : Finset Revision)
    (listed : List Revision) : Prop where
  descending : listed.Pairwise fun r r' => r.counter > r'.counter ∨
    r.counter = r'.counter ∧ r.hash > r'.hash
  nodup : listed.Nodup
  foreign : own ∉ listed
  bounded : listed.length ≤ cap
  newest : listed.toFinset = largest cap (revisions.erase own)

/-- `fold_ancestors` lists the newest of what it is given. -/
theorem newestListed_foldAncestors (stored : Revision) (incoming : List Revision)
    (current : Option Record) (cap : Nat) :
    NewestListed cap stored (incoming ++ current.elim [] Record.lineage).toFinset
      (foldAncestors stored incoming current cap) where
  descending := (pairwise_newest cap _ _).imp fun {r r'} gt => by
    rcases (Revision.lt_iff r' r).mp gt with lt | ⟨same, lt⟩
    · exact Or.inl lt
    · exact Or.inr ⟨same.symm, lt⟩
  nodup := (pairwise_newest cap _ _).imp fun gt => ne_of_gt gt
  foreign := fun member => (mem_foldAncestors member).1 rfl
  bounded := length_newest_le cap _ _
  newest := by
    have above : ∀ r, ((incoming ++ current.elim [] Record.lineage).toFinset.filter
        fun y => y ≠ stored ∧ r < y) =
        ((incoming ++ current.elim [] Record.lineage).toFinset.erase stored).filter (r < ·) := by
      intro r
      ext y
      simp only [Finset.mem_filter, Finset.mem_erase]
      exact ⟨fun ⟨listed, other, up⟩ => ⟨⟨other, listed⟩, up⟩,
        fun ⟨⟨other, listed⟩, up⟩ => ⟨listed, other, up⟩⟩
    ext r
    rw [List.mem_toFinset, mem_foldAncestors_iff, above, mem_largest, Finset.mem_erase,
      List.mem_toFinset, and_left_comm, and_assoc]

/-- The list is determined by what it is taken from. -/
theorem NewestListed.unique {cap : Nat} {own : Revision} {revisions : Finset Revision}
    {listed listed' : List Revision} (is : NewestListed cap own revisions listed)
    (is' : NewestListed cap own revisions listed') : listed = listed' := by
  have sorted : ∀ {l : List Revision}, NewestListed cap own revisions l → l.Pairwise (· > ·) :=
    fun is => is.descending.imp fun {r r'} newer => (Revision.lt_iff r' r).mpr <| by
      rcases newer with gt | ⟨same, gt⟩
      · exact Or.inl gt
      · exact Or.inr ⟨same.symm, gt⟩
  refine (sorted is).eq_of_mem_iff (sorted is') fun r => ?_
  rw [← List.mem_toFinset, is.newest, ← is'.newest, List.mem_toFinset]

end Ancestors

section Writes

variable [Blake3]

/-- A write that folds ancestors: the record it makes under a cap, the ancestors it was
given, and the record it replaces. -/
inductive Folds (cap : Nat) : List Revision → Option Record → Record → Prop
  | put {current : Option Record} {record w : Record} {expected : Option Revision} {nowMs : Int}
      (plan : planPut current record expected nowMs cap = .write w) :
      Folds cap record.ancestors current w
  | putRaw {current : Option Record} {record w : Record} {expected : Option Revision} {nowMs : Int}
      (plan : planPutRaw current record expected nowMs cap = .write w) :
      Folds cap record.ancestors current w
  | delete {current : Option Record} {w : Record} {expected : Option Revision} {nowMs : Int}
      {author : Option Identity} (plan : planDelete current expected nowMs cap author = .write w) :
      Folds cap [] current w
  | reconciled (a b : Record) (body : Body) (author : Identity) (originSystem : String) :
      Folds cap (a.lineage ++ b.lineage) none (reconciledRecord a b body author originSystem cap)
  | winner (a b : Record) : Folds cap (a.lineage ++ b.lineage) none (tombstoneWinner a b cap)

/-- All of them persist what `fold_ancestors` makes of that. -/
theorem Folds.ancestors {cap : Nat} {incoming : List Revision} {current : Option Record}
    {w : Record} (folds : Folds cap incoming current w) :
    w.ancestors = foldAncestors w.revision incoming current cap := by
  cases folds with
  | put plan =>
    obtain ⟨-, ⟨rfl, -, rfl⟩ | ⟨t, rfl, -, -, -, rfl⟩ | ⟨c, rfl, -, -, rfl⟩⟩ := planPut_write plan <;>
      rfl
  | putRaw plan =>
    obtain ⟨rfl, -⟩ := planPutRaw_write plan
    rfl
  | delete plan =>
    obtain ⟨c, rfl, -, -, rfl⟩ := planDelete_write plan
    rfl
  | reconciled a b body author originSystem => rfl
  | winner a b => rfl

/-- What a write persists as ancestors: strictly descending, no more than the cap, without
its own revision, and the newest of what it was given and of what it replaces names; two
writes of one revision that are given the same, in whatever order, persist the same list. -/
theorem ancestors_are_newest {cap : Nat} {incoming : List Revision} {current : Option Record}
    {w : Record} (folds : Folds cap incoming current w) :
    NewestListed cap w.revision (incoming ++ current.elim [] Record.lineage).toFinset w.ancestors ∧
      ∀ (incoming' : List Revision) (current' : Option Record) (w' : Record),
        Folds cap incoming' current' w' → w'.revision = w.revision →
        (∀ r, r ∈ incoming' ++ current'.elim [] Record.lineage ↔
          r ∈ incoming ++ current.elim [] Record.lineage) → w'.ancestors = w.ancestors := by
  have is := newestListed_foldAncestors w.revision incoming current cap
  refine ⟨folds.ancestors ▸ is, fun incoming' current' w' folds' same alike => ?_⟩
  have is' := newestListed_foldAncestors w'.revision incoming' current' cap
  have revisions : (incoming' ++ current'.elim [] Record.lineage).toFinset =
      (incoming ++ current.elim [] Record.lineage).toFinset := by
    ext r
    simpa only [List.mem_toFinset] using alike r
  rw [same, revisions] at is'
  rw [folds'.ancestors, folds.ancestors, same]
  exact is'.unique is

end Writes

/-! ## Counters -/

section Counters

variable [Blake3]

/-- A record that the store or the core builds on top of others. -/
inductive BuiltOn : List Record → Record → Prop
  | tombstone {c w : Record} {expected : Option Revision} {nowMs : Int} {cap : Nat}
      {author : Option Identity}
      (plan : planDelete (some c) expected nowMs cap author = .write w) : BuiltOn [c] w
  | recreation {t record w : Record} {expected : Option Revision} {nowMs : Int} {cap : Nat}
      (dead : t.isTombstone = true)
      (plan : planPut (some t) record expected nowMs cap = .write w) : BuiltOn [t] w
  | undeleted {key : RecordKey} {kind : RecordKind} {tomb w : Record} {nowMs : Int} {cap : Nat}
      {author : Option Identity}
      (plan : planPutRaw (some tomb) (restoredRecord key kind tomb nowMs author)
        (some tomb.revision) nowMs cap = .write w) : BuiltOn [tomb] w
  | reconciled (a b : Record) (body : Body) (author : Identity) (originSystem : String)
      (cap : Nat) : BuiltOn [a, b] (reconciledRecord a b body author originSystem cap)

/-- `w` has a counter above those it replaces, one more than the highest of them without
wrapping. -/
structure Counts (replaced : List Record) (w : Record) : Prop where
  above : ∀ r ∈ replaced, r.revision.counter < w.revision.counter
  exact : ∃ r ∈ replaced, w.revision.counter.toNat = r.revision.counter.toNat + 1 ∧
    ∀ r' ∈ replaced, r'.revision.counter ≤ r.revision.counter

omit [Blake3] in
theorem toNat_add_one {n : UInt64} (room : n ≠ maxCounter) : (n + 1).toNat = n.toNat + 1 := by
  have other : n.toNat ≠ 18446744073709551615 := fun same => room (UInt64.toNat_inj.mp same)
  have small := n.toNat_lt
  rw [UInt64.toNat_add, UInt64.toNat_one]
  omega

omit [Blake3] in
theorem not_lt_add_one_of_max : ¬ maxCounter < maxCounter + 1 := by decide

/-- A built record's counter is the successor of the highest one it replaces. -/
theorem BuiltOn.counter {replaced : List Record} {w : Record} (built : BuiltOn replaced w) :
    ∃ r ∈ replaced, w.revision.counter = r.revision.counter + 1 ∧
      ∀ r' ∈ replaced, r'.revision.counter ≤ r.revision.counter := by
  have single : ∀ {r w : Record}, w.revision.counter = r.revision.counter + 1 →
      ∃ r' ∈ [r], w.revision.counter = r'.revision.counter + 1 ∧
        ∀ r'' ∈ [r], r''.revision.counter ≤ r'.revision.counter := fun {r w} next =>
    ⟨r, List.mem_cons_self, next, by simp⟩
  cases built with
  | tombstone plan =>
    obtain ⟨c, is, -, -, rfl⟩ := planDelete_write plan
    cases is
    exact single rfl
  | recreation dead plan =>
    obtain ⟨-, ⟨absent, -⟩ | ⟨t, is, -, -, -, rfl⟩ | ⟨c, is, live, -⟩⟩ := planPut_write plan
    · cases absent
    · cases is
      exact single rfl
    · cases is
      rw [dead] at live
      cases live
  | undeleted plan =>
    obtain ⟨rfl, -⟩ := planPutRaw_write plan
    exact single rfl
  | reconciled a b body author originSystem cap =>
    rcases le_total b.revision.counter a.revision.counter with le | le
    · refine ⟨a, by simp, ?_, by simpa using le⟩
      change max a.revision.counter b.revision.counter + 1 = _
      rw [max_eq_left le]
    · refine ⟨b, by simp, ?_, by simpa using le⟩
      change max a.revision.counter b.revision.counter + 1 = _
      rw [max_eq_right le]

/-- The counter of a built record exceeds all that it replaces, without wrapping, exactly when
none of them has the last counter. -/
theorem built_counter_increases_iff {replaced : List Record} {w : Record}
    (built : BuiltOn replaced w) :
    Counts replaced w ↔ ∀ r ∈ replaced, r.revision.counter ≠ maxCounter := by
  obtain ⟨top, member, next, highest⟩ := built.counter
  constructor
  · rintro ⟨above, -⟩ r listed full
    have atTop : top.revision.counter = maxCounter := by
      refine le_antisymm ?_ (full ▸ highest r listed)
      exact UInt64.le_iff_toNat_le.mpr (Nat.le_of_lt_succ top.revision.counter.toNat_lt)
    have wrapped := above top member
    rw [next, atTop] at wrapped
    exact not_lt_add_one_of_max wrapped
  · intro room
    have stepped := lt_add_one_of_ne_max (room top member)
    refine ⟨fun r listed => ?_, top, member, ?_, highest⟩
    · rw [next]
      exact (highest r listed).trans_lt stepped
    · rw [next]
      exact toNat_add_one (room top member)

end Counters

section Samples

attribute [local instance] sampleBlake3

/-- A put of a record that lists revisions twice, out of order, and itself. -/
theorem tangledPut_newest :
    ∃ w, planPut (some (topicAt rustKey 1 "v0")) { topicAt rustKey 2 "v1" with
        ancestors := [⟨0, .of []⟩, ⟨2, .of (asBytes "v1")⟩, ⟨0, .of []⟩] }
        (some (topicAt rustKey 1 "v0").revision) 5 2 = .write w ∧
      NewestListed 2 ⟨2, .of (asBytes "v1")⟩ [⟨0, .of []⟩, ⟨2, .of (asBytes "v1")⟩, ⟨0, .of []⟩,
        (topicAt rustKey 1 "v0").revision].toFinset w.ancestors := by
  refine ⟨_, rfl, ?_⟩
  exact (ancestors_are_newest (Folds.put (rfl : planPut (some (topicAt rustKey 1 "v0"))
    { topicAt rustKey 2 "v1" with
      ancestors := [⟨0, .of []⟩, ⟨2, .of (asBytes "v1")⟩, ⟨0, .of []⟩] }
    (some (topicAt rustKey 1 "v0").revision) 5 2 = .write _))).1

/-- The tombstone of a record with the last counter starts again at zero. -/
theorem last_counter_wraps :
    ∃ c w, planDelete (some c) none 5 32 none = .write w ∧ BuiltOn [c] w ∧
      w.revision.counter = 0 ∧ ¬ c.revision.counter < w.revision.counter := by
  refine ⟨topicAt rustKey maxCounter "v0", _, rfl, .tombstone (rfl : planDelete
    (some (topicAt rustKey maxCounter "v0")) none 5 32 none = _), rfl, ?_⟩
  decide

/-- The tombstone of a fresh record has the next one. -/
theorem first_counter_increases :
    Counts [topicAt rustKey 0 "v0"] (tombstoneOf (topicAt rustKey 0 "v0") 5 32 none) :=
  (built_counter_increases_iff (.tombstone (rfl : planDelete (some (topicAt rustKey 0 "v0")) none 5
    32 none = _))).mpr (by decide)

end Samples

end Gonzalo.Core
