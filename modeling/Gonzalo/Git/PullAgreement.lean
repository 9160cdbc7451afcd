import Gonzalo.Core.Sync
import Gonzalo.Git.Merge

/-!
# Pull against sync

The store decides a record changed on both sides twice: `merge_non_ff` in
`gonzalo-store-git/src/lib.rs` by trees, kinds and bodies, and `sync_pass` in
`gonzalo-core/src/sync.rs` by revision ancestry. The two agree on the class of the
outcome, except where two live records have one body and neither names the other (the
merge keeps the local one and says nothing) and where each names the other. A record
without a namespace or a collection has a path that the merge does not read.
-/

set_option autoImplicit false

namespace Gonzalo.Core
open Gonzalo.Lib

variable {σ : Type} [Blake3] [Serde]

/-- The arm of `sync_pass` for a key that is present on both sides. -/
def syncPair (a b : σ) (ancestry : Bool) (key : RecordKey) (recA recB : Record) (s : PassState) :
    SyncProgram σ PassState :=
  match relate recA recB with
  | .inSync => pure s
  | .aAhead => do
    let landed ← overwrite b recA recB.revision
    pure (s.settle key landed fun r => { r with fastForwardedToB := r.fastForwardedToB ++ [key] })
  | .bAhead => do
    let landed ← overwrite a recB recA.revision
    pure (s.settle key landed fun r => { r with fastForwardedToA := r.fastForwardedToA ++ [key] })
  | .diverged => reconcileDiverged a b ancestry key recA recB s

theorem syncKey_pair (a b : σ) (ancestry : Bool) (s : PassState) (key : RecordKey) :
    syncKey a b ancestry s key = (do
      let ra ← getRaw a key
      let rb ← getRaw b key
      match ra, rb with
      | some recA, some recB => syncPair a b ancestry key recA recB s
      | some rec, none =>
        let landed ← copy b rec
        pure (s.settle key landed fun r => { r with copiedToB := r.copiedToB ++ [key] })
      | none, some rec =>
        let landed ← copy a rec
        pure (s.settle key landed fun r => { r with copiedToA := r.copiedToA ++ [key] })
      | none, none => pure s) := by
  unfold syncKey
  congr 1
  funext ra
  congr 1
  funext rb
  cases ra <;> cases rb <;> rfl

end Gonzalo.Core

namespace Gonzalo.Git
open Gonzalo.Core Gonzalo.Lib

/-! ## The outcome of a sync -/

section Outcome

variable [Blake3] [Serde]

/-- What `sync_pass` decides for a pair with `base` as the base of a merge. -/
def syncOutcome (base : Body) (recA recB : Record) : RecordOutcome :=
  match relate recA recB with
  | .inSync | .aAhead => .keepLocal
  | .bAhead => .takeRemote
  | .diverged =>
    match recA.isTombstone, recB.isTombstone with
    | true, true => .tombstoneWinner (tombstoneWinner recA recB (losslessCap recA recB))
    | true, false | false, true => .conflict
    | false, false =>
      match merge recA.kind.mergeClass base recA.body recB.body with
      | .merged body => .merged (buildMerged recA recB body)
      | .needsResolution => .conflict

/-- Carry a decision out: the writes of `sync_pass` and its report. -/
def settlePair {σ : Type} (a b : σ) (key : RecordKey) (recA recB : Record) (s : PassState) :
    RecordOutcome → SyncProgram σ PassState
  | .keepLocal =>
    if recA.revision = recB.revision then pure s
    else do
      let landed ← overwrite b recA recB.revision
      pure (s.settle key landed fun r =>
        { r with fastForwardedToB := r.fastForwardedToB ++ [key] })
  | .takeRemote => do
    let landed ← overwrite a recB recA.revision
    pure (s.settle key landed fun r => { r with fastForwardedToA := r.fastForwardedToA ++ [key] })
  | .tombstoneWinner rec | .merged rec => do
    let landed ← overwriteBoth a b rec recA.revision recB.revision
    pure (s.settle key landed fun r => { r with merged := r.merged ++ [key] })
  | .conflict => pure (s.conflict key recA recB)

/-- `sync_pass` reads a base for two diverged live records only, and does what
`syncOutcome` decides. -/
theorem syncPair_settles {σ : Type} (a b : σ) (ancestry : Bool) (key : RecordKey)
    (recA recB : Record) (s : PassState) :
    syncPair a b ancestry key recA recB s =
      ((if relate recA recB = .diverged ∧ recA.isTombstone = false ∧ recB.isTombstone = false then
          ancestryBase ancestry recA recB
        else pure (.inline [])) >>= fun base =>
        settlePair a b key recA recB s (syncOutcome base recA recB)) := by
  unfold syncPair syncOutcome
  cases related : relate recA recB with
  | inSync => simp [settlePair, relate_inSync.mp related]
  | aAhead => simp [settlePair, (relate_aAhead related).1]
  | bAhead => simp [settlePair]
  | diverged =>
    unfold reconcileDiverged
    cases deadA : recA.isTombstone <;> cases deadB : recB.isTombstone
    case false.false =>
      simp only [and_self, if_true]
      congr 1
      funext base
      cases merge recA.kind.mergeClass base recA.body recB.body <;> rfl
    all_goals simp [settlePair]

/-- The classes of outcomes. -/
inductive OutcomeClass where
  | keepLocal | takeRemote | tombstoneWinner | merged | conflict
  deriving DecidableEq

/-- The class of an outcome, whatever record it leaves. -/
def RecordOutcome.outcomeClass : RecordOutcome → OutcomeClass
  | .keepLocal => .keepLocal
  | .takeRemote => .takeRemote
  | .tombstoneWinner _ => .tombstoneWinner
  | .merged _ => .merged
  | .conflict => .conflict

omit [Blake3] [Serde] in
/-- Two live records with one body, neither of which names the other. -/
def SameBody (l r : Record) : Prop :=
  relate l r = .diverged ∧ l.isTombstone = false ∧ r.isTombstone = false ∧ l.body = r.body

omit [Blake3] [Serde] in
/-- Two different revisions, each among the ancestors of the other's record. -/
def NameEachOther (l r : Record) : Prop :=
  l.revision ≠ r.revision ∧ l.revision ∈ r.ancestors ∧ r.revision ∈ l.ancestors

omit [Blake3] [Serde] in
theorem relate_diverged {l r : Record} : relate l r = .diverged ↔
    l.revision ≠ r.revision ∧ r.revision ∉ l.ancestors ∧ l.revision ∉ r.ancestors := by
  unfold relate
  split_ifs <;> simp_all

/-- The merge of two records neither of which names the other. -/
theorem recordOutcome_of_diverged {base : Body} {l r : Record} {cap : Nat}
    (diverged : relate l r = .diverged) :
    recordOutcome base l r cap =
      match l.isTombstone, r.isTombstone with
      | true, true => .tombstoneWinner (tombstoneWinner l r cap)
      | true, false | false, true => .conflict
      | false, false =>
        if l.body = r.body then .keepLocal
        else match merge l.kind.mergeClass base l.body r.body with
          | .merged body => .merged (mergedRecord l r body cap)
          | .needsResolution => .conflict := by
  obtain ⟨equal, ahead, behind⟩ := relate_diverged.mp diverged
  cases deadL : l.isTombstone <;> cases deadR : r.isTombstone <;>
    by_cases alike : l.body = r.body <;>
    cases merged : merge l.kind.mergeClass base l.body r.body <;>
    simp [recordOutcome, equal, ahead, behind, deadL, deadR, alike, merged]

/-- The merge and the sync decide alike, except for the two kinds of pairs. -/
theorem recordOutcome_class_iff (base : Body) (l r : Record) (cap : Nat) :
    (recordOutcome base l r cap).outcomeClass = (syncOutcome base l r).outcomeClass ↔
      ¬ SameBody l r ∧ ¬ NameEachOther l r := by
  by_cases diverged : relate l r = .diverged
  · have apart : ¬ NameEachOther l r := fun named => (relate_diverged.mp diverged).2.1 named.2.2
    rw [recordOutcome_of_diverged diverged, syncOutcome, diverged]
    cases deadL : l.isTombstone <;> cases deadR : r.isTombstone
    case false.false =>
      by_cases alike : l.body = r.body <;>
        cases merge l.kind.mergeClass base l.body r.body <;>
        simp [RecordOutcome.outcomeClass, SameBody, diverged, deadL, deadR, alike, apart]
    all_goals simp [RecordOutcome.outcomeClass, SameBody, deadL, deadR, apart]
  · have other : ¬ SameBody l r := fun same => diverged same.1
    by_cases equal : l.revision = r.revision
    · simp [recordOutcome, syncOutcome, NameEachOther, relate, equal, other]
    · have named : r.revision ∉ l.ancestors → l.revision ∈ r.ancestors := fun ahead =>
        not_not.mp fun behind => diverged (relate_diverged.mpr ⟨equal, ahead, behind⟩)
      by_cases behind : l.revision ∈ r.ancestors <;> by_cases ahead : r.revision ∈ l.ancestors <;>
        simp_all [recordOutcome, syncOutcome, NameEachOther, relate, RecordOutcome.outcomeClass]

/-- The record an outcome leaves at its key. -/
def RecordOutcome.left (localRec remoteRec : Record) : RecordOutcome → Record
  | .keepLocal | .conflict => localRec
  | .takeRemote => remoteRec
  | .tombstoneWinner record | .merged record => record

omit [Blake3] [Serde] in
/-- So many newer revisions lie in the two chains that `remote` is cut from the ancestors
of the record that reconciles them. -/
def Crowded (cap : Nat) (l r left : Record) : Prop :=
  cap ≤ ((l.lineage ++ r.lineage).toFinset.filter fun x =>
    x ≠ left.revision ∧ r.revision < x).card

omit [Blake3] [Serde] in
/-- A reconciled record names both sides, unless the cap cuts them. -/
theorem remote_reconciled {l r left : Record} {cap : Nat}
    (folded : left.ancestors = reconciledAncestors left.revision l r cap) :
    r.revision = left.revision ∨ r.revision ∈ left.ancestors ∨ Crowded cap l r left := by
  by_cases own : r.revision = left.revision
  · exact Or.inl own
  refine Or.inr (or_iff_not_imp_right.mpr fun room => ?_)
  rw [folded]
  refine mem_newest_iff.mpr ⟨?_, by simpa using own, ?_⟩
  · simp [Record.lineage]
  · simp only [Option.elim_none, List.append_nil]
    refine lt_of_eq_of_lt ?_ (not_le.mp room)
    congr!
    simp

/-- The remote revision ends up in the record that is left, or in a conflict, except when
the bodies are one and when the cap cuts it from a reconciled record. -/
theorem remote_accounted (base : Body) {l r : Record} {cap : Nat} (apart : ¬ SameBody l r) :
    let outcome := recordOutcome base l r cap
    r.revision = (outcome.left l r).revision ∨ r.revision ∈ (outcome.left l r).ancestors ∨
      outcome = .conflict ∨
      ((outcome.outcomeClass = .tombstoneWinner ∨ outcome.outcomeClass = .merged) ∧
        Crowded cap l r (outcome.left l r)) := by
  by_cases diverged : relate l r = .diverged
  · simp only [recordOutcome_of_diverged diverged]
    cases deadL : l.isTombstone <;> cases deadR : r.isTombstone
    case true.true =>
      rcases @remote_reconciled l r (tombstoneWinner l r cap) cap rfl with
        own | named | crowded
      · exact Or.inl own
      · exact Or.inr (Or.inl named)
      · exact Or.inr (Or.inr (Or.inr ⟨Or.inl rfl, crowded⟩))
    case false.false =>
      have bodies : l.body ≠ r.body := fun alike => apart ⟨diverged, deadL, deadR, alike⟩
      simp only [bodies, if_false]
      cases merge l.kind.mergeClass base l.body r.body with
      | needsResolution => exact Or.inr (Or.inr (Or.inl rfl))
      | merged body =>
        rcases @remote_reconciled l r (mergedRecord l r body cap) cap rfl with
          own | named | crowded
        · exact Or.inl own
        · exact Or.inr (Or.inl named)
        · exact Or.inr (Or.inr (Or.inr ⟨Or.inr rfl, crowded⟩))
    all_goals exact Or.inr (Or.inr (Or.inl rfl))
  · by_cases equal : l.revision = r.revision
    · simp [recordOutcome, RecordOutcome.left, equal]
    by_cases behind : l.revision ∈ r.ancestors
    · simp [recordOutcome, RecordOutcome.left, equal, behind]
    by_cases ahead : r.revision ∈ l.ancestors
    · simp [recordOutcome, RecordOutcome.left, equal, behind, ahead]
    exact absurd (relate_diverged.mpr ⟨equal, ahead, behind⟩) diverged

/-- A pair that needs no base is decided alike over any base. -/
theorem recordOutcome_base (base base' : Body) {l r : Record} {cap : Nat} (idle : ¬ NeedsBase l r) :
    recordOutcome base l r cap = recordOutcome base' l r cap := by
  by_cases diverged : relate l r = .diverged
  · obtain ⟨equal, ahead, behind⟩ := relate_diverged.mp diverged
    rw [recordOutcome_of_diverged diverged, recordOutcome_of_diverged diverged]
    cases deadL : l.isTombstone <;> cases deadR : r.isTombstone <;> try rfl
    have alike : l.body = r.body :=
      not_not.mp fun differ => idle ⟨equal, behind, ahead, deadL, deadR, differ⟩
    simp [alike]
  · by_cases equal : l.revision = r.revision
    · simp [recordOutcome, equal]
    · have named : r.revision ∉ l.ancestors → l.revision ∈ r.ancestors := fun ahead =>
        not_not.mp fun behind => diverged (relate_diverged.mpr ⟨equal, ahead, behind⟩)
      by_cases behind : l.revision ∈ r.ancestors <;> by_cases ahead : r.revision ∈ l.ancestors <;>
        simp_all [recordOutcome]

end Outcome

/-! ## What a pull leaves -/

section Pull

variable {β : Type} [RecordJson β]

theorem BaseBody.unique {base : Option (Tree β)} {path : Path} {body body' : Body}
    (first : BaseBody base path body) (second : BaseBody base path body') : body = body' := by
  unfold BaseBody at first second
  cases stored : base.bind fun tree => tree[path]? with
  | none =>
    simp only [stored] at first second
    exact first.trans second.symm
  | some file =>
    simp only [stored] at first second
    obtain ⟨record, read, rfl⟩ := first
    obtain ⟨record', read', rfl⟩ := second
    cases read.symm.trans read'
    rfl

/-- The file an outcome leaves holds the record it leaves. -/
theorem RecordOutcome.Leaves.file (roundTrip : RoundTrip β) {outcome : RecordOutcome}
    {key : RecordKey} {mine : β} {l r : Record} {s : PathState β} (readHere : decode mine = .ok l)
    (leaves : outcome.Leaves key mine l r s) :
    ∃ file, s.file = some file ∧ decode file = .ok (outcome.left l r) := by
  cases outcome with
  | keepLocal => cases leaves; exact ⟨mine, rfl, readHere⟩
  | conflict => cases leaves; exact ⟨mine, rfl, readHere⟩
  | takeRemote =>
    obtain ⟨file, written, rfl⟩ := leaves
    exact ⟨file, rfl, roundTrip r file written⟩
  | tombstoneWinner record | merged record =>
    obtain ⟨file, written, rfl⟩ := leaves
    exact ⟨file, rfl, roundTrip record file written⟩

omit [RecordJson β] in
theorem PullReport.conflicts_foldl (parts : List PullReport) (start : PullReport) :
    (parts.foldl PullReport.append start).conflicts =
      start.conflicts ++ parts.flatMap PullReport.conflicts := by
  induction parts generalizing start with
  | nil => simp
  | cons part parts ih =>
    rw [List.foldl_cons, ih, List.flatMap_cons, PullReport.append, List.append_assoc]

variable [Blake3] [Serde] {base : Option (Tree β)} {localTree remoteTree : Tree β} {cap : Nat}

/-- A conflict at a path is one of the report. -/
theorem Reconciles.reported {paths : List Path} {state : Path → PathState β} {s : MergeState β}
    (reconciles : Reconciles base localTree remoteTree cap paths state s) {path : Path}
    (changed : path ∈ paths) {conflict : PullConflict}
    (listed : conflict ∈ (state path).report.conflicts) : conflict ∈ s.report.conflicts := by
  rw [reconciles.report, PullReport.conflicts_foldl]
  refine List.mem_append_right _ (List.mem_flatMap.mpr ⟨_, ?_, listed⟩)
  exact List.mem_map_of_mem changed

variable {path : Path} {state : PathState β} {mine theirs : β}

/-- A record present and changed on both sides is decided by `recordOutcome`. -/
theorem PathMerged.pair {key : RecordKey} {l r : Record}
    (merged : PathMerged base localTree remoteTree cap path state)
    (named : keyFromPath path = some key)
    (here : localTree[path]? = some mine) (there : remoteTree[path]? = some theirs)
    (readHere : decode mine = .ok l) (readThere : decode theirs = .ok r)
    (changedHere : (base.bind fun tree => tree[path]?) ≠ some mine)
    (changedThere : (base.bind fun tree => tree[path]?) ≠ some theirs) :
    ∃ body, (NeedsBase l r → BaseBody base path body) ∧
      (recordOutcome body l r cap).Leaves key mine l r state := by
  cases merged with
  | untouched same => exact absurd (same.trans there) changedThere
  | remoteOnly changed same => exact absurd (same.trans here) changedHere
  | unnamed changed unnamed => cases unnamed.symm.trans named
  | purgedThere changed gone => cases gone.symm.trans there
  | purgedHere changed named' gone stored read written => cases gone.symm.trans here
  | records _ _ named' here' there' readHere' readThere' based leaves =>
    cases named.symm.trans named'
    cases here.symm.trans here'
    cases there.symm.trans there'
    cases readHere.symm.trans readHere'
    cases readThere.symm.trans readThere'
    exact ⟨_, based, leaves⟩

/-- A file changed on both sides at a path that is no record's stays as it is here. -/
theorem PathMerged.keeps (merged : PathMerged base localTree remoteTree cap path state)
    (unnamed : keyFromPath path = none)
    (here : localTree[path]? = some mine) (there : remoteTree[path]? = some theirs)
    (changedHere : (base.bind fun tree => tree[path]?) ≠ some mine)
    (changedThere : (base.bind fun tree => tree[path]?) ≠ some theirs) :
    state = { file := some mine } := by
  cases merged with
  | untouched same => exact absurd (same.trans there) changedThere
  | remoteOnly changed same => exact absurd (same.trans here) changedHere
  | unnamed | purgedThere => rw [here]
  | purgedHere changed named | records _ _ named => cases unnamed.symm.trans named

/-- A record that both sides of a merge changed since the base. If its key has no namespace
or no collection, the merge keeps the local file and reports nothing. Otherwise, unless the
two records are live, have one body and neither names the other, the merge decides the
class a sync decides for the pair (where each names the other it takes the remote record),
and the remote revision is that of the record left in the tree, or one of its ancestors, or
the key is a conflict of the report, or the cap cut it from a reconciled record. -/
theorem pull_agrees_with_sync (roundTrip : RoundTrip β) {v v' : Repo β × Bool} {s : MergeState β}
    (run : Program.Runs (Served (noFaults β)) v (mergeTrees base localTree remoteTree cap) v' (.ok s))
    {key : RecordKey} {l r : Record} {body : Body}
    (here : localTree[relPath key]? = some mine) (there : remoteTree[relPath key]? = some theirs)
    (readHere : decode mine = .ok l) (readThere : decode theirs = .ok r)
    (changedHere : (base.bind fun tree => tree[relPath key]?) ≠ some mine)
    (changedThere : (base.bind fun tree => tree[relPath key]?) ≠ some theirs)
    (based : BaseBody base (relPath key) body) :
    ∃ paths state, Reconciles base localTree remoteTree cap paths state s ∧
      (¬ Fs.Nested key → state (relPath key) = { file := some mine }) ∧
      (Fs.Nested key → ∃ outcome : RecordOutcome,
        outcome.Leaves key mine l r (state (relPath key)) ∧
        (outcome.outcomeClass = (syncOutcome body l r).outcomeClass ↔
          ¬ SameBody l r ∧ ¬ NameEachOther l r) ∧
        ∃ file left, s.index[relPath key]? = some file ∧ decode file = .ok left ∧
          (¬ SameBody l r →
            r.revision = left.revision ∨ r.revision ∈ left.ancestors ∨
              ⟨key, l, r⟩ ∈ s.report.conflicts ∨
              ((outcome.outcomeClass = .tombstoneWinner ∨ outcome.outcomeClass = .merged) ∧
                Crowded cap l r left))) := by
  obtain ⟨paths, state, reconciles⟩ :=
    ((wp_mergeTrees (fun _ _ _ => id) base localTree remoteTree cap).runs run).2 s rfl
  have decided := reconciles.decided (relPath key)
  refine ⟨paths, state, reconciles, fun short => ?_, fun nested => ?_⟩
  · exact decided.keeps (keyFromPath_relPath_short short) here there changedHere changedThere
  obtain ⟨body', based', leaves⟩ := decided.pair (keyFromPath_relPath nested) here there readHere
    readThere changedHere changedThere
  have same : recordOutcome body' l r cap = recordOutcome body l r cap := by
    by_cases needs : NeedsBase l r
    · rw [(based' needs).unique based]
    · exact recordOutcome_base body' body needs
  rw [same] at leaves
  obtain ⟨file, stored, read⟩ := leaves.file roundTrip readHere
  rw [← reconciles.index] at stored
  refine ⟨_, leaves, recordOutcome_class_iff body l r cap, file, _, stored, read, fun apart => ?_⟩
  rcases @remote_accounted _ _ body l r cap apart with own | named | conflict | crowded
  · exact Or.inl own
  · exact Or.inr (Or.inl named)
  · refine Or.inr (Or.inr (Or.inl ?_))
    rw [conflict] at leaves
    have changed : relPath key ∈ paths := (reconciles.changed _).mpr (there ▸ changedThere)
    refine reconciles.reported changed ?_
    rw [show state (relPath key) = _ from leaves]
    exact List.mem_singleton.mpr rfl
  · exact Or.inr (Or.inr (Or.inr crowded))

end Pull

/-! ## Pairs on which they differ -/

section Differ

attribute [local instance] sampleBlake3 plainSerde recordFiles

/-- A tree with one record. -/
def treeOf (record : Record) : Tree Record := (∅ : Tree Record).insert (relPath record.key) record

theorem treeOf_self (record : Record) : (treeOf record)[relPath record.key]? = some record := by
  simp [treeOf]

theorem deltas_treeOf {old new : Record} (same : old.key = new.key) (differ : old ≠ new) :
    Repo.Deltas (some (treeOf old)) (treeOf new) [⟨relPath new.key, false⟩] := by
  refine ⟨by simp, fun path => ?_, by simp [treeOf]⟩
  by_cases here : path = relPath new.key
  · simp [treeOf, here, same, differ]
  · simp [treeOf, same, here, Ne.symm here]

def someRepo : Repo Record := ⟨∅, ∅, fun _ => none, "main", none⟩

theorem runs_recordAt (record : Record) :
    Program.Runs (Served (noFaults Record)) (someRepo, false)
      (recordAt (some (treeOf record)) (relPath record.key)) (someRepo, false)
      (.ok (some record)) := by
  refine .ask (.ok (.getPath _ _)) ?_
  rw [treeOf_self]
  exact .ask (.ok (.readObject _)) (.done _ _)

section Pairs

variable {base l r : Record} {s : MergeState Record}

/-- The merge of one file that both sides changed. -/
theorem runs_mergeTrees (sameHere : base.key = l.key) (differHere : base ≠ l)
    (sameThere : base.key = r.key) (differThere : base ≠ r)
    (decided : Program.Runs (Served (noFaults Record)) (someRepo, false)
      (mergeDelta (some (treeOf base)) (treeOf l) (treeOf r) [relPath base.key] 32
        ⟨treeOf l, {}⟩ ⟨relPath base.key, false⟩) (someRepo, false) (.ok s)) :
    Program.Runs (Served (noFaults Record)) (someRepo, false)
      (mergeTrees (some (treeOf base)) (treeOf l) (treeOf r) 32) (someRepo, false) (.ok s) := by
  have here := deltas_treeOf sameHere differHere
  have there := deltas_treeOf sameThere differThere
  rw [← sameHere] at here
  rw [← sameThere] at there
  refine .ask (.ok (.diff here)) (.ask (.ok (.diff there)) ?_)
  exact decided.bind (.done _ _)

/-- Two records of a path that is read come to the arms for a pair. -/
theorem runs_mergePair (sameHere : base.key = l.key) (sameThere : base.key = r.key)
    (nested : Fs.Nested base.key) (run : Program.Runs (Served (noFaults Record)) (someRepo, false)
      (mergeRecords (some (treeOf base)) 32 ⟨treeOf l, {}⟩ (relPath base.key) base.key l r)
      (someRepo, false) (.ok s)) :
    Program.Runs (Served (noFaults Record)) (someRepo, false)
      (mergeDelta (some (treeOf base)) (treeOf l) (treeOf r) [relPath base.key] 32
        ⟨treeOf l, {}⟩ ⟨relPath base.key, false⟩) (someRepo, false) (.ok s) := by
  have readHere := runs_recordAt l
  have readThere := runs_recordAt r
  rw [← sameHere] at readHere
  rw [← sameThere] at readThere
  unfold mergeDelta
  dsimp only
  rw [if_neg (not_not.mpr List.mem_cons_self), keyFromPath_relPath nested]
  exact readHere.bind (readThere.bind run)

/-- A path that is not read is left alone. -/
theorem runs_mergeShort (short : ¬ Fs.Nested base.key) :
    Program.Runs (Served (noFaults Record)) (someRepo, false)
      (mergeDelta (some (treeOf base)) (treeOf l) (treeOf r) [relPath base.key] 32
        ⟨treeOf l, {}⟩ ⟨relPath base.key, false⟩) (someRepo, false) (.ok ⟨treeOf l, {}⟩) := by
  unfold mergeDelta
  dsimp only
  rw [if_neg (not_not.mpr List.mem_cons_self), keyFromPath_relPath_short short]
  exact .done _ _

end Pairs

/-- The topic at the merge base. -/
def baseTopic (key : RecordKey) : Record := topicAt key 0 "v0"

/-- Edited once on this side. -/
def localTopic (key : RecordKey) : Record :=
  { topicAt key 1 "v1" with ancestors := [(baseTopic key).revision] }

/-- The other side's edit of the local record. -/
def laterTopic (key : RecordKey) : Record :=
  { topicAt key 2 "" with ancestors := [(localTopic key).revision, (baseTopic key).revision] }

/-- Edited twice on the other side, to the same text. -/
def remoteTopic : Record :=
  { topicAt rustKey 2 "v1" with
    ancestors := [⟨1, .of (asBytes "")⟩, (baseTopic rustKey).revision] }

/-- The merge of one text reached in one edit here and in two edits there. -/
theorem runs_equalBodies :
    Program.Runs (Served (noFaults Record)) (someRepo, false)
      (mergeTrees (some (treeOf (baseTopic rustKey))) (treeOf (localTopic rustKey))
        (treeOf remoteTopic) 32) (someRepo, false) (.ok ⟨treeOf (localTopic rustKey), {}⟩) := by
  refine @runs_mergeTrees (baseTopic rustKey) (localTopic rustKey) remoteTopic _ rfl (by decide) rfl
    (by decide) ?_
  exact runs_mergePair rfl rfl rustKey_nested (.done _ _)

/-- A topic of a namespace without collections. -/
def shortKey : RecordKey := ⟨"topics", "", "rust"⟩

/-- A record that names the other's revision, which names it in turn. -/
def crossed (counter other : UInt64) : Record :=
  { topicAt rustKey counter "v1" with ancestors := [⟨other, .of (asBytes "v1")⟩] }

/-- Two tombstones and, below the newer one, a revision newer than the older one. -/
def newTombstone : Record :=
  { tombstoneOf (topicAt rustKey 4 "v1") 0 32 none with ancestors := [⟨4, .of (asBytes "v1")⟩] }

def oldTombstone : Record := { tombstoneOf (topicAt rustKey 2 "v0") 0 32 none with ancestors := [] }

/-- The second edit of the other side is dropped without a word where a sync would merge
the pair. Where each record names the other the merge takes the remote record and a
sync does not. A cap of 1 cuts the remote revision from the winner of two tombstones. And
an edit of the local record is dropped without a word where the key has no collection. -/
theorem pull_disagrees_with_sync :
    (∃ s : MergeState Record, Program.Runs (Served (noFaults Record)) (someRepo, false)
        (mergeTrees (some (treeOf (baseTopic rustKey))) (treeOf (localTopic rustKey))
          (treeOf remoteTopic) 32) (someRepo, false) (.ok s) ∧
      s.index[relPath rustKey]? = some (localTopic rustKey) ∧ s.report = {} ∧
      remoteTopic.revision ≠ (localTopic rustKey).revision ∧
      remoteTopic.revision ∉ (localTopic rustKey).ancestors ∧
      (syncOutcome (baseTopic rustKey).body (localTopic rustKey) remoteTopic).outcomeClass =
        .merged) ∧
    ((recordOutcome (baseTopic rustKey).body (crossed 1 2) (crossed 2 1) 32).outcomeClass =
        .takeRemote ∧
      (syncOutcome (baseTopic rustKey).body (crossed 1 2) (crossed 2 1)).outcomeClass =
        .keepLocal) ∧
    (∃ winner, recordOutcome (baseTopic rustKey).body newTombstone oldTombstone 1 =
        .tombstoneWinner winner ∧
      oldTombstone.revision ≠ winner.revision ∧ oldTombstone.revision ∉ winner.ancestors) ∧
    ∃ s : MergeState Record, Program.Runs (Served (noFaults Record)) (someRepo, false)
        (mergeTrees (some (treeOf (baseTopic shortKey))) (treeOf (localTopic shortKey))
          (treeOf (laterTopic shortKey)) 32) (someRepo, false) (.ok s) ∧
      s.index[relPath shortKey]? = some (localTopic shortKey) ∧ s.report = {} ∧
      (syncOutcome (baseTopic shortKey).body (localTopic shortKey)
        (laterTopic shortKey)).outcomeClass = .takeRemote := by
  have skipped := @runs_mergeTrees (baseTopic shortKey) (localTopic shortKey) (laterTopic shortKey)
    _ rfl (by decide) rfl (by decide) (runs_mergeShort fun nested => nested.2 rfl)
  exact ⟨⟨_, runs_equalBodies, treeOf_self _, rfl, by decide, by decide, by decide⟩,
    ⟨by decide, by decide⟩, ⟨_, rfl, by decide, by decide⟩,
    _, skipped, treeOf_self _, rfl, by decide⟩

/-- The merge takes the record that is ahead. -/
theorem laterTopic_taken :
    ∃ s : MergeState Record, Program.Runs (Served (noFaults Record)) (someRepo, false)
        (mergeTrees (some (treeOf (baseTopic rustKey))) (treeOf (localTopic rustKey))
          (treeOf (laterTopic rustKey)) 32) (someRepo, false) (.ok s) ∧
      ∃ (outcome : RecordOutcome) (state : PathState Record),
        outcome.Leaves rustKey (localTopic rustKey) (localTopic rustKey) (laterTopic rustKey)
          state ∧
        outcome.outcomeClass = (syncOutcome (baseTopic rustKey).body (localTopic rustKey)
          (laterTopic rustKey)).outcomeClass := by
  have run : Program.Runs (Served (noFaults Record)) (someRepo, false)
      (mergeTrees (some (treeOf (baseTopic rustKey))) (treeOf (localTopic rustKey))
        (treeOf (laterTopic rustKey)) 32) (someRepo, false)
      (.ok ⟨(treeOf (localTopic rustKey)).insert (relPath rustKey) (laterTopic rustKey),
        { advanced := [rustKey] }⟩) := by
    refine @runs_mergeTrees (baseTopic rustKey) (localTopic rustKey) (laterTopic rustKey) _ rfl
      (by decide) rfl (by decide) ?_
    exact runs_mergePair rfl rfl rustKey_nested (.ask (.ok .editIndex) (.done _ _))
  have based : BaseBody (some (treeOf (baseTopic rustKey))) (relPath rustKey)
      (baseTopic rustKey).body := by
    have stored := treeOf_self (baseTopic rustKey)
    rw [show (baseTopic rustKey).key = rustKey from rfl] at stored
    simpa [BaseBody, stored] using ⟨_, rfl, rfl⟩
  have differs : ∀ record, baseTopic rustKey ≠ record →
      ((some (treeOf (baseTopic rustKey))).bind fun tree => tree[relPath rustKey]?) ≠
        some record := by
    intro record differ
    have stored := treeOf_self (baseTopic rustKey)
    rw [show (baseTopic rustKey).key = rustKey from rfl] at stored
    rw [Option.bind_some, stored]
    simpa using differ
  obtain ⟨paths, state, -, -, agrees⟩ := pull_agrees_with_sync
    (fun record file written => by cases written; rfl) run (treeOf_self (localTopic rustKey))
    (treeOf_self (laterTopic rustKey)) rfl rfl (differs _ (by decide)) (differs _ (by decide)) based
  obtain ⟨outcome, leaves, alike, -⟩ := agrees rustKey_nested
  exact ⟨_, run, outcome, _, leaves, alike.mpr
    ⟨fun same => absurd same.2.2.2 (by decide), fun named => absurd named.2.2 (by decide)⟩⟩

end Differ

end Gonzalo.Git
