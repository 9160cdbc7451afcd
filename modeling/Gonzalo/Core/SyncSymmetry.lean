import Gonzalo.Core.SyncOutcome
import Gonzalo.Core.StructuredMerge

/-!
# Which store is named first

Two runs of `gonzalo-core/src/sync.rs` from the same quiet stores, `sync(A, B)` and
`sync(B, A)`. Their reports mirror each other exactly when the outcome at each key does,
and that can fail in two ways: `relate` looks at the ancestors of the first record first,
and `sync_pass` takes the merge class from the first record alone.
-/

set_option autoImplicit false

namespace Gonzalo.Core
open Gonzalo.Lib

/-- The arm with the sides exchanged. -/
def Arm.mirror : Arm → Arm
  | copyToA => copyToB
  | copyToB => copyToA
  | forwardToA => forwardToB
  | forwardToB => forwardToA
  | arm => arm

@[simp] theorem Arm.mirror_mirror (arm : Arm) : arm.mirror.mirror = arm := by cases arm <;> rfl

theorem Arm.mirror_eq_iff {arm arm' : Arm} : arm.mirror = arm' ↔ arm = arm'.mirror :=
  ⟨fun is => by rw [← is, mirror_mirror], fun is => by rw [is, mirror_mirror]⟩

/-- Two reports that say the same with the sides exchanged. -/
structure Mirrored (report report' : SyncReport) : Prop where
  copiedToA : report'.copiedToA = report.copiedToB
  copiedToB : report'.copiedToB = report.copiedToA
  fastForwardedToA : report'.fastForwardedToA = report.fastForwardedToB
  fastForwardedToB : report'.fastForwardedToB = report.fastForwardedToA
  merged : report'.merged = report.merged
  conflicts : report'.conflicts.map SyncConflict.key = report.conflicts.map SyncConflict.key
  unconverged : report'.unconverged = report.unconverged

/-- Reports of two passes over the same keys mirror each other exactly when the arms do. -/
theorem mirrored_reportOf {outcomes outcomes' : RecordKey → Outcome} {keys : List RecordKey} :
    Mirrored (reportOf outcomes keys) (reportOf outcomes' keys) ↔
      ∀ key ∈ keys, (outcomes' key).arm = (outcomes key).arm.mirror := by
  constructor
  · intro mirrored key listed
    have lists : ∀ {arm arm' : Arm}, keysOf outcomes' keys arm = keysOf outcomes keys arm' →
        ((outcomes' key).arm = arm ↔ (outcomes key).arm = arm') := by
      intro arm arm' same
      have members : key ∈ keysOf outcomes' keys arm ↔ key ∈ keysOf outcomes keys arm' := by
        rw [same]
      simpa [keysOf, listed] using members
    have copyA := lists mirrored.copiedToA
    have copyB := lists mirrored.copiedToB
    have forwardA := lists mirrored.fastForwardedToA
    have forwardB := lists mirrored.fastForwardedToB
    have merged := lists mirrored.merged
    have conflicts := mirrored.conflicts
    rw [conflict_keys_reportOf, conflict_keys_reportOf] at conflicts
    have conflicted := lists conflicts
    generalize (outcomes' key).arm = arm' at *
    generalize (outcomes key).arm = arm at *
    cases arm' <;> cases arm <;> simp_all [Arm.mirror]
  · intro mirror
    have lists : ∀ arm, keysOf outcomes' keys arm = keysOf outcomes keys arm.mirror := fun arm =>
      List.filter_congr fun key listed => by
        rw [mirror key listed, decide_eq_decide, Arm.mirror_eq_iff]
    refine ⟨lists .copyToA, lists .copyToB, lists .forwardToA, lists .forwardToB, lists .merged,
      ?_, rfl⟩
    rw [conflict_keys_reportOf, conflict_keys_reportOf]
    exact lists .conflict

/-! ## One key -/

/-- Each record lists the other's revision as its ancestor. -/
def MutualAncestors (recA recB : Record) : Prop :=
  recA.revision ≠ recB.revision ∧ recB.revision ∈ recA.ancestors ∧ recA.revision ∈ recB.ancestors

theorem relate_swap {recA recB : Record} (apart : ¬ MutualAncestors recA recB) :
    relate recB recA = match relate recA recB with
      | .inSync => .inSync
      | .aAhead => .bAhead
      | .bAhead => .aAhead
      | .diverged => .diverged := by
  unfold MutualAncestors at apart
  unfold relate
  by_cases same : recA.revision = recB.revision
  · simp [same]
  · rw [if_neg same, if_neg (Ne.symm same)]
    by_cases listedB : recB.revision ∈ recA.ancestors <;>
      by_cases listedA : recA.revision ∈ recB.ancestors <;> simp_all

section Arms

variable [Serde] {blobs : Blobs} {ancestry : Bool}

omit [Serde] in
theorem retainedBase_symm (recA recB : Record) :
    retainedBase blobs ancestry recB recA = retainedBase blobs ancestry recA recB := by
  unfold retainedBase
  cases ancestry with
  | false => rfl
  | true =>
    cases recA.parent with
    | none => cases recB.parent <;> rfl
    | some pa =>
      cases recB.parent with
      | none => rfl
      | some pb =>
        simp only
        by_cases shared : pa = pb
        · rw [if_pos shared, if_pos shared.symm, shared]
        · rw [if_neg shared, if_neg (Ne.symm shared)]

/-- Two bodies that a class merges without asking. -/
def Merges (mergeClass : MergeClass) (base ours theirs : Body) : Prop :=
  match mergeClass with
  | .appendOnly | .derived => True
  | .opaqueBody => False
  | .structured => ∃ x y z, Serde.fromSlice base.bytes = some x ∧
      Serde.fromSlice ours.bytes = some y ∧ Serde.fromSlice theirs.bytes = some z ∧
      ¬ ConflictAt (some x) (some y) (some z)

theorem merge_asks_iff_not_merges (writes : ∀ value, (Serde.toVec value).isSome)
    {mergeClass : MergeClass} {base ours theirs : Body} :
    merge mergeClass base ours theirs = .needsResolution ↔
      ¬ Merges mergeClass base ours theirs := by
  cases mergeClass with
  | appendOnly => simp [merge, Merges, appendOnlyMerge]
  | derived => simp [merge, Merges]
  | opaqueBody => simp [merge, Merges]
  | structured =>
    rw [merge, structuredMerge_asks_iff writes, Merges]
    push Not
    rfl

theorem merges_symm {mergeClass : MergeClass} {base ours theirs : Body} :
    Merges mergeClass base theirs ours ↔ Merges mergeClass base ours theirs := by
  cases mergeClass with
  | structured =>
    constructor
    · rintro ⟨x, y, z, atBase, atTheirs, atOurs, calm⟩
      exact ⟨x, z, y, atBase, atOurs, atTheirs, fun conflict => calm conflict.symm⟩
    · rintro ⟨x, y, z, atBase, atOurs, atTheirs, calm⟩
      exact ⟨x, z, y, atBase, atTheirs, atOurs, fun conflict => calm conflict.symm⟩
  | appendOnly | opaqueBody | derived => exact Iff.rfl

variable [Blake3]

/-- The arm of a diverged pair of live records. -/
theorem divergedOutcome_arm (writes : ∀ value, (Serde.toVec value).isSome) {recA recB : Record}
    (liveA : recA.isTombstone = false) (liveB : recB.isTombstone = false)
    [Decidable (Merges recA.kind.mergeClass (retainedBase blobs ancestry recA recB) recA.body
      recB.body)] :
    (divergedOutcome blobs ancestry recA recB).arm =
      if Merges recA.kind.mergeClass (retainedBase blobs ancestry recA recB) recA.body recB.body
        then .merged else .conflict := by
  have asks := @merge_asks_iff_not_merges _ writes recA.kind.mergeClass
    (retainedBase blobs ancestry recA recB) recA.body recB.body
  simp only [divergedOutcome, liveA, liveB]
  cases merging : merge recA.kind.mergeClass (retainedBase blobs ancestry recA recB) recA.body
      recB.body with
  | merged body =>
    rw [if_pos (not_not.mp fun unmerged => by simp [asks.mpr unmerged] at merging)]
    rfl
  | needsResolution =>
    rw [if_neg (asks.mp merging)]
    rfl

/-- The classes of both kinds agree on whether these two records merge. -/
def SameFate (blobs : Blobs) (ancestry : Bool) (recA recB : Record) : Prop :=
  Merges recA.kind.mergeClass (retainedBase blobs ancestry recA recB) recA.body recB.body ↔
    Merges recB.kind.mergeClass (retainedBase blobs ancestry recA recB) recA.body recB.body

/-- A pair that a pass treats alike whichever store is named first. -/
structure Fair (blobs : Blobs) (ancestry : Bool) (recA recB : Record) : Prop where
  ordered : ¬ MutualAncestors recA recB
  sameFate : relate recA recB = .diverged → recA.isTombstone = false → recB.isTombstone = false →
    SameFate blobs ancestry recA recB

theorem divergedOutcome_mirror_iff (writes : ∀ value, (Serde.toVec value).isSome)
    {recA recB : Record} :
    (divergedOutcome blobs ancestry recB recA).arm =
        (divergedOutcome blobs ancestry recA recB).arm.mirror ↔
      (recA.isTombstone = false → recB.isTombstone = false →
        SameFate blobs ancestry recA recB) := by
  classical
  cases liveA : recA.isTombstone with
  | true => cases liveB : recB.isTombstone <;> simp [divergedOutcome, liveA, liveB] <;> rfl
  | false =>
    cases liveB : recB.isTombstone with
    | true => simp [divergedOutcome, liveA, liveB]; rfl
    | false =>
      rw [divergedOutcome_arm writes liveA liveB, divergedOutcome_arm writes liveB liveA,
        retainedBase_symm, SameFate]
      have symm : ∀ mergeClass, Merges mergeClass (retainedBase blobs ancestry recA recB) recB.body
          recA.body ↔ Merges mergeClass (retainedBase blobs ancestry recA recB) recA.body
            recB.body := fun _ => merges_symm
      simp only [symm, forall_const]
      split_ifs <;> simp_all [Arm.mirror]

theorem outcome_pair_mirror_iff (writes : ∀ value, (Serde.toVec value).isSome)
    {recA recB : Record} :
    (outcome blobs ancestry (some recB) (some recA)).arm =
        (outcome blobs ancestry (some recA) (some recB)).arm.mirror ↔
      Fair blobs ancestry recA recB := by
  by_cases each : MutualAncestors recA recB
  · have ahead : relate recA recB = .aAhead := by rw [relate, if_neg each.1, if_pos each.2.1]
    have ahead' : relate recB recA = .aAhead := by
      rw [relate, if_neg (Ne.symm each.1), if_pos each.2.2]
    constructor
    · intro mirrors
      simp only [outcome, ahead, ahead'] at mirrors
      cases mirrors
    · intro fair
      exact absurd each fair.ordered
  · have swapped := relate_swap each
    cases related : relate recA recB with
    | diverged =>
      rw [related] at swapped
      simp only [outcome, related, swapped]
      rw [divergedOutcome_mirror_iff writes]
      exact ⟨fun same => ⟨each, fun _ => same⟩, fun fair => fair.sameFate related⟩
    | inSync | aAhead | bAhead =>
      rw [related] at swapped
      simp only [outcome, related, swapped]
      exact ⟨fun _ => ⟨each, fun diverged => by simp [related] at diverged⟩, fun _ => rfl⟩

theorem outcome_mirror_iff (writes : ∀ value, (Serde.toVec value).isSome)
    {ra rb : Option Record} :
    (outcome blobs ancestry rb ra).arm = (outcome blobs ancestry ra rb).arm.mirror ↔
      ∀ recA ∈ ra, ∀ recB ∈ rb, Fair blobs ancestry recA recB := by
  cases ra with
  | none => cases rb <;> simp [outcome, Outcome.arm, Arm.mirror]
  | some recA =>
    cases rb with
    | none => simp [outcome, Outcome.arm, Arm.mirror]
    | some recB => simpa using outcome_pair_mirror_iff writes

end Arms

/-! ## Both orders of a sync -/

section Orders

variable {σ : Type} [DecidableEq σ] [Blake3] [Serde]

/-- The reports of both orders mirror each other exactly when the arms at each key do. -/
theorem mirrored_iff_arms {a b : σ} (distinct : a ≠ b) (blobs : Blobs) (ancestry : Bool)
    (nowMs : Int) (w : σ → MemStore) :
    ∃ report report',
      ((syncWithAncestry a b ancestry).exec (serveStores blobs nowMs) w).2 = .ok report ∧
      ((syncWithAncestry b a ancestry).exec (serveStores blobs nowMs) w).2 = .ok report' ∧
      (Mirrored report report' ↔ ∀ key, (outcomeAt blobs ancestry b a w key).arm =
        (outcomeAt blobs ancestry a b w key).arm.mirror) := by
  obtain ⟨_, ran, -⟩ := exec_syncWithAncestry distinct blobs ancestry nowMs w
  obtain ⟨_, ran', -⟩ := exec_syncWithAncestry distinct.symm blobs ancestry nowMs w
  refine ⟨_, _, by rw [ran], by rw [ran'], ?_⟩
  have same : ascending ((w b).listRaw .all ++ (w a).listRaw .all) =
      ascending ((w a).listRaw .all ++ (w b).listRaw .all) :=
    (pairwise_ascending _).eq_of_mem_iff (pairwise_ascending _) fun key => by
      simp [or_comm]
  rw [same, mirrored_reportOf]
  refine ⟨fun mirror key => ?_, fun mirror key _ => mirror key⟩
  by_cases listed : key ∈ ascending ((w a).listRaw .all ++ (w b).listRaw .all)
  · exact mirror key listed
  · have absent : (w a).getRaw key = none ∧ (w b).getRaw key = none := by
      simpa [MemStore.mem_listRaw, ← Option.eq_none_iff_forall_ne_some] using listed
    rw [outcomeAt, outcomeAt, absent.1, absent.2]
    rfl

/-- Sync two quiet stores in either order. The reports mirror each other exactly when no
key holds two records that list each other as ancestors, or two diverged live ones of which
one kind's class merges the bodies and the other's does not. -/
theorem sync_symmetric_iff (writes : ∀ value, (Serde.toVec value).isSome) {a b : σ}
    (distinct : a ≠ b) (blobs : Blobs) (ancestry : Bool) (nowMs : Int) (w : σ → MemStore) :
    ∃ report report',
      ((syncWithAncestry a b ancestry).exec (serveStores blobs nowMs) w).2 = .ok report ∧
      ((syncWithAncestry b a ancestry).exec (serveStores blobs nowMs) w).2 = .ok report' ∧
      (Mirrored report report' ↔ ∀ key, ∀ recA ∈ (w a).getRaw key, ∀ recB ∈ (w b).getRaw key,
        Fair blobs ancestry recA recB) := by
  obtain ⟨report, report', ran, ran', mirrored⟩ := mirrored_iff_arms distinct blobs ancestry nowMs w
  refine ⟨report, report', ran, ran', mirrored.trans (forall_congr' fun key => ?_)⟩
  exact outcome_mirror_iff writes

end Orders

/-! ## Two kinds at one key -/

section Kinds

attribute [local instance] sampleBlake3 sampleSerde

/-- A topic in one store and a checkpoint in the other, edited apart. -/
def twoKinds (name : Bool) : MemStore :=
  (MemStore.empty 2 Nat.two_pos).insert
    (if name then { topicAt rustKey 1 "v1" with kind := .checkpoint } else topicAt rustKey 1 "v0")

theorem twoKinds_getRaw (name : Bool) (key : RecordKey) : (twoKinds name).getRaw key =
    if rustKey = key then
      some (if name then { topicAt rustKey 1 "v1" with kind := .checkpoint }
        else topicAt rustKey 1 "v0")
    else none := by
  rw [twoKinds, MemStore.getRaw_insert, MemStore.getRaw_empty]
  cases name <;> rfl

/-- With the topic's store named first the two are merged, with the checkpoint's they are
a conflict. -/
theorem twoKinds_not_mirrored :
    ∃ report report',
      ((sync false true).exec (serveStores (fun _ => .ok none) 0) twoKinds).2 = .ok report ∧
      ((sync true false).exec (serveStores (fun _ => .ok none) 0) twoKinds).2 = .ok report' ∧
      ¬ Mirrored report report' := by
  obtain ⟨report, report', ran, ran', mirrored⟩ :=
    mirrored_iff_arms Bool.false_ne_true (fun _ => .ok none) false 0 twoKinds
  refine ⟨report, report', ran, ran', fun mirror => ?_⟩
  have arms := mirrored.mp mirror rustKey
  rw [outcomeAt, outcomeAt, twoKinds_getRaw, twoKinds_getRaw] at arms
  revert arms
  decide

/-- Two edits of one topic are merged in either order. -/
theorem twoEdits_mirrored :
    ∃ report report',
      ((sync false true).exec (serveStores (fun _ => .ok none) 0) twoEdits).2 = .ok report ∧
      ((sync true false).exec (serveStores (fun _ => .ok none) 0) twoEdits).2 = .ok report' ∧
      Mirrored report report' := by
  obtain ⟨report, report', ran, ran', mirrored⟩ :=
    sync_symmetric_iff (fun _ => rfl) Bool.false_ne_true (fun _ => .ok none) false 0 twoEdits
  refine ⟨report, report', ran, ran', mirrored.mpr fun key recA atA recB atB => ?_⟩
  have stored : ∀ {name : Bool} {r : Record}, (twoEdits name).getRaw key = some r →
      r = topicAt rustKey 1 (if name then "v1" else "v0") := by
    intro name r held
    rw [twoEdits, MemStore.getRaw_insert, MemStore.getRaw_empty] at held
    exact (Option.some.inj (Option.ite_none_right_eq_some.mp held).2).symm
  rw [stored atA, stored atB]
  exact ⟨fun each => absurd each.2.1 (by decide), fun _ _ _ => Iff.rfl⟩

end Kinds

end Gonzalo.Core
