import Gonzalo.Core.SyncOutcome

/-!
# Writes within the ancestor cap

A store and a peer hold one record. Then the store alone takes writes of the consumer
surface: updates built by `Record::update` from what is stored, deletions, and creations
over the tombstone. All three go through `fold_ancestors` of
`gonzalo-core/src/tombstone.rs`, which keeps the newest `cap` revisions, so the peer's
revision is still listed exactly when few enough listed revisions are newer.
-/

set_option autoImplicit false

namespace Gonzalo.Core
open Gonzalo.Lib

section Writes

variable [Blake3]

/-- A committed consumer write over the stored record `c`, built by a client from it. -/
inductive WriteStep (key : RecordKey) (c : Record) (s : MemStore) : MemStore → Prop
  | update (nowMs : Int) (body : Body) (metadata : Meta) (live : c.isTombstone = false) :
      WriteStep key c s (s.put nowMs (c.update body metadata) (some c.revision)).1
  | delete (nowMs : Int) (expected : Option Revision) (author : Option Identity)
      (live : c.isTombstone = false) (fresh : expected = none ∨ expected = some c.revision) :
      WriteStep key c s (s.deleteAs nowMs key expected author).1
  | recreate (nowMs : Int) (record : Record) (dead : c.isTombstone = true)
      (free : c.deletedKind.any RecordKind.isManifest = false) (own : record.key = key)
      (live : record.isTombstone = false) (built : record.ancestors = []) :
      WriteStep key c s (s.put nowMs record none).1

/-- A run of such writes at one key, with the revisions it replaced, newest first. -/
inductive WriteRun (key : RecordKey) (s : MemStore) : List Revision → MemStore → Prop
  | start : WriteRun key s [] s
  | step {replaced : List Revision} {s' s'' : MemStore} {c : Record}
      (run : WriteRun key s replaced s') (stored : s'.getRaw key = some c)
      (write : WriteStep key c s' s'') : WriteRun key s (c.revision :: replaced) s''

theorem put_update {s : MemStore} {key : RecordKey} {c : Record}
    (stored : s.getRaw key = some c) (live : c.isTombstone = false) (nowMs : Int) (body : Body)
    (metadata : Meta) :
    (s.put nowMs (c.update body metadata) (some c.revision)).1 =
      s.insert (updatedRecord c (c.update body metadata) nowMs s.cap) := by
  rw [MemStore.put_update_commits stored live]

/-- Each of the three writes stores the next counter and folds the record it replaces. -/
theorem WriteStep.files {key : RecordKey} {c : Record} {s s' : MemStore}
    (stored : s.getRaw key = some c) (write : WriteStep key c s s') :
    ∃ w : Record, s' = s.insert w ∧ w.key = key ∧
      w.revision.counter = c.revision.counter + 1 ∧
      w.ancestors = foldAncestors w.revision [] (some c) s.cap := by
  have own := MemStore.key_of_getRaw stored
  cases write with
  | update nowMs body metadata live =>
    exact ⟨updatedRecord c (c.update body metadata) nowMs s.cap,
      put_update stored live nowMs body metadata, own, rfl, rfl⟩
  | delete nowMs expected author live fresh =>
    have planned : planDelete (s.getRaw key) expected nowMs s.cap author =
        .write (tombstoneOf c nowMs s.cap author) := by
      simp [planDelete, stored, live, fresh]
    refine ⟨tombstoneOf c nowMs s.cap author, ?_, own, rfl, rfl⟩
    rw [MemStore.deleteAs, planned]
  | recreate nowMs record dead free keyed live built =>
    have planned : planPut (s.getRaw record.key) record none nowMs s.cap =
        .write (recreatedRecord c record nowMs s.cap) := by
      simp [planPut, keyed, stored, live, dead, free]
    refine ⟨recreatedRecord c record nowMs s.cap, ?_, keyed, rfl, ?_⟩
    · rw [MemStore.put, MemStore.write, planned]
    · rw [recreatedRecord, built]

/-- The number of listed revisions newer than `first`, `last` apart. -/
def newerThan (first last : Revision) (listed : List Revision) : Nat :=
  (listed.toFinset.filter fun r => r ≠ last ∧ first < r).card

omit [Blake3] in
theorem newerThan_cons {first last next : Revision} {listed : List Revision}
    (above : next ∈ listed → first < next → first < last) :
    newerThan first last listed ≤ newerThan first next (last :: listed) := by
  unfold newerThan
  convert card_above_insert above

/-- What a run has made of the record: its counter, whether it still lists the first
revision, and as long as it does, every newer one it has seen. -/
structure RunKept (first c : Record) (replaced : List Revision) (cap : Nat) : Prop where
  counter : c.revision.counter = first.revision.counter + UInt64.ofNat replaced.length
  kept : first.revision ∈ c.lineage ↔
    replaced = [] ∨ newerThan first.revision c.revision (replaced ++ first.ancestors) < cap
  newer : first.revision ∈ c.lineage → ∀ r, first.revision < r →
    (r ∈ c.lineage ↔ r ∈ c.revision :: (replaced ++ first.ancestors))

omit [Blake3] in
theorem toNat_add_ofNat (n : UInt64) (k : Nat) :
    (n + UInt64.ofNat k).toNat = (n.toNat + k) % 2 ^ 64 := by
  rw [UInt64.toNat_add, UInt64.toNat_ofNat', Nat.add_mod_mod]

omit [Blake3] in
/-- Fewer than `2 ^ 64` writes later the counter is another one. -/
theorem revision_ne_of_counter {r r' : Revision} {k : Nat}
    (counter : r'.counter = r.counter + UInt64.ofNat k) (some : 0 < k) (few : k < 2 ^ 64) :
    r' ≠ r := by
  rintro rfl
  have value := congrArg UInt64.toNat counter
  rw [toNat_add_ofNat] at value
  have small := r'.counter.toNat_lt
  omega

omit [Blake3] in
/-- A revision above the first one was reached without wrapping, and so was the one before. -/
theorem revision_lt_of_next {r p q : Revision} {k : Nat} (some : 0 < k) (few : k + 1 < 2 ^ 64)
    (counterP : p.counter = r.counter + UInt64.ofNat k)
    (counterQ : q.counter = r.counter + UInt64.ofNat (k + 1)) (above : r < q) : r < p := by
  rw [Revision.lt_iff] at above ⊢
  left
  have valueP := congrArg UInt64.toNat counterP
  have valueQ := congrArg UInt64.toNat counterQ
  rw [toNat_add_ofNat] at valueP valueQ
  have small := r.counter.toNat_lt
  have higher : r.counter.toNat ≤ q.counter.toNat := by
    rcases above with lt | ⟨same, -⟩
    · exact Nat.le_of_lt (UInt64.lt_iff_toNat_lt.mp lt)
    · exact Nat.le_of_eq (congrArg UInt64.toNat same)
  rw [UInt64.lt_iff_toNat_lt]
  omega

omit [Blake3] in
theorem RunKept.step {first c w : Record} {replaced : List Revision} {cap : Nat}
    (before : RunKept first c replaced cap) (few : replaced.length + 1 < 2 ^ 64)
    (counter : w.revision.counter = c.revision.counter + 1)
    (folded : w.ancestors = foldAncestors w.revision [] (some c) cap) :
    RunKept first w (c.revision :: replaced) cap := by
  have counted : w.revision.counter =
      first.revision.counter + UInt64.ofNat (replaced.length + 1) := by
    rw [counter, before.counter, UInt64.ofNat_add, ← UInt64.add_assoc]
    rfl
  have other : w.revision ≠ first.revision :=
    revision_ne_of_counter counted (Nat.succ_pos _) few
  have listed : ∀ r, r ∈ w.ancestors ↔ r ∈ c.lineage ∧ r ≠ w.revision ∧
      (c.lineage.toFinset.filter fun y => y ≠ w.revision ∧ r < y).card < cap := by
    intro r
    rw [folded, mem_foldAncestors_iff]
    rfl
  have same : first.revision ∈ c.lineage →
      (c.lineage.toFinset.filter fun y => y ≠ w.revision ∧ first.revision < y).card =
        newerThan first.revision w.revision (c.revision :: replaced ++ first.ancestors) := by
    intro member
    unfold newerThan
    congr 1
    ext y
    simp only [Finset.mem_filter, List.mem_toFinset]
    refine and_congr_left fun higher => ?_
    exact before.newer member y higher.2
  refine ⟨counted, ?_, fun member r higher => ?_⟩
  · have inLineage : first.revision ∈ w.lineage ↔ first.revision ∈ w.ancestors := by
      rw [Record.lineage, List.mem_cons, or_iff_right (Ne.symm other)]
    rw [inLineage, listed]
    constructor
    · rintro ⟨member, -, few⟩
      exact Or.inr (same member ▸ few)
    · rintro (none | room)
      · cases none
      · by_cases member : first.revision ∈ c.lineage
        · exact ⟨member, other.symm, (same member).symm ▸ room⟩
        · -- once dropped the count has reached the cap, and it never falls again
          exfalso
          refine member (before.kept.mpr (or_iff_not_imp_left.mpr fun some => ?_))
          refine lt_of_le_of_lt (newerThan_cons fun _ higher => ?_) room
          exact revision_lt_of_next (List.length_pos_iff.mpr some) few before.counter counted higher
  · have inAncestors : first.revision ∈ w.ancestors :=
      (List.mem_cons.mp member).resolve_left (Ne.symm other)
    obtain ⟨inBefore, -, room⟩ := (listed _).mp inAncestors
    rw [Record.lineage, List.mem_cons, List.mem_cons, listed, before.newer inBefore r higher,
      List.cons_append]
    refine or_congr_right' fun apart => ?_
    refine ⟨fun held => held.1, fun held => ⟨held, apart, lt_of_le_of_lt ?_ room⟩⟩
    refine Finset.card_le_card fun y up => ?_
    obtain ⟨inside, notW, above⟩ := Finset.mem_filter.mp up
    exact Finset.mem_filter.mpr ⟨inside, notW, higher.trans above⟩

/-- A run of writes keeps track of the record it started from. -/
theorem WriteRun.kept {key : RecordKey} {s s' : MemStore} {replaced : List Revision}
    {first last : Record} (run : WriteRun key s replaced s') (few : replaced.length < 2 ^ 64)
    (atStart : s.getRaw key = some first) (atEnd : s'.getRaw key = some last) :
    RunKept first last replaced s.cap ∧ s'.cap = s.cap := by
  induction run generalizing last with
  | start =>
    cases atStart.symm.trans atEnd
    refine ⟨⟨(UInt64.add_zero _).symm, ?_, fun _ r _ => Iff.rfl⟩, rfl⟩
    simp [Record.lineage]
  | @step replaced s' s'' c run stored write ih =>
    obtain ⟨kept, cap⟩ := ih (Nat.lt_of_succ_lt few) stored
    obtain ⟨w, rfl, own, counter, folded⟩ := write.files stored
    rw [MemStore.getRaw_insert, if_pos own] at atEnd
    cases atEnd
    exact ⟨kept.step few counter (cap ▸ folded), cap⟩

/-! ## The sync after the run -/

section Peer

variable {σ : Type} [DecidableEq σ] [Serde] (blobs : Blobs) (ancestry : Bool) (nowMs : Int)
  (a b : σ) (w : σ → MemStore) (key : RecordKey)

/-- A sync of `a` and `b`, whichever is named first, only brings `b` up to `last`, with the
ancestors that `b` keeps of it: it reports the key as fast-forwarded, and as no merge and no
conflict. -/
structure Forwarded (last : Record) : Prop where
  writerFirst : ∃ w' report, (syncWithAncestry a b ancestry).exec (serveStores blobs nowMs) w =
      (w', .ok report) ∧ key ∈ report.fastForwardedToB ∧ key ∉ report.merged ∧
    key ∉ report.conflicts.map SyncConflict.key ∧
    ∃ ancestors, (w' b).getRaw key = some { last with ancestors := ancestors }
  peerFirst : ∃ w' report, (syncWithAncestry b a ancestry).exec (serveStores blobs nowMs) w =
      (w', .ok report) ∧ key ∈ report.fastForwardedToA ∧ key ∉ report.merged ∧
    key ∉ report.conflicts.map SyncConflict.key ∧
    ∃ ancestors, (w' b).getRaw key = some { last with ancestors := ancestors }

/-- A sync of `a` and `b`, whichever is named first, does not leave `a` with the revision
`older`. -/
structure NotReverted (older : Revision) : Prop where
  writerFirst : ∀ r ∈ (((syncWithAncestry a b ancestry).exec (serveStores blobs nowMs) w).1
    a).getRaw key, r.revision ≠ older
  peerFirst : ∀ r ∈ (((syncWithAncestry b a ancestry).exec (serveStores blobs nowMs) w).1
    a).getRaw key, r.revision ≠ older

variable {blobs ancestry nowMs a b w key} {last peer : Record}

omit [Blake3] [Serde] in
theorem written_record {rec : Record} (own : rec.key = key) (dst : σ) :
    ∃ ancestors, (written w dst rec dst).getRaw key =
      some { rec with ancestors := ancestors } := by
  have key_eq : (rawRecord ((w dst).getRaw rec.key) rec (w dst).cap).key = key := own
  refine ⟨(rawRecord ((w dst).getRaw rec.key) rec (w dst).cap).ancestors, ?_⟩
  rw [written, Function.update_self, MemStore.getRaw_insert, if_pos key_eq]
  rfl

omit [Blake3] [Serde] in
theorem written_revision {rec : Record} (own : rec.key = key) (dst : σ) :
    ((written w dst rec dst).getRaw key).map Record.revision = some rec.revision :=
  own ▸ written_getRaw_self

theorem forwarded_iff (distinct : a ≠ b) (atA : (w a).getRaw key = some last)
    (atB : (w b).getRaw key = some peer) :
    Forwarded blobs ancestry nowMs a b w key last ↔
      relate last peer = .aAhead ∧ relate peer last = .bAhead := by
  have own := MemStore.key_of_getRaw atA
  obtain ⟨w', report, ran, named, alike⟩ := exec_sync_at distinct blobs ancestry nowMs w key
  obtain ⟨w'', report', ran', named', alike'⟩ :=
    exec_sync_at distinct.symm blobs ancestry nowMs w key
  rw [outcomeAt, atA, atB] at named alike named' alike'
  constructor
  · rintro ⟨⟨_, _, run, here, -⟩, ⟨_, _, run', here', -⟩⟩
    cases ran.symm.trans run
    cases ran'.symm.trans run'
    exact ⟨arm_forwardToB_iff.mp (named.fastForwardedToB.mp here),
      arm_forwardToA_iff.mp (named'.fastForwardedToA.mp here')⟩
  · rintro ⟨ahead, ahead'⟩
    have forwards : outcome blobs ancestry (some last) (some peer) = .forwardToB last := by
      simp only [outcome, ahead]
    have forwards' : outcome blobs ancestry (some peer) (some last) = .forwardToA last := by
      simp only [outcome, ahead']
    rw [forwards] at named alike
    rw [forwards'] at named' alike'
    refine ⟨⟨w', report, ran, named.fastForwardedToB.mpr rfl, fun listed => ?_, fun listed => ?_,
      ?_⟩, ⟨w'', report', ran', named'.fastForwardedToA.mpr rfl, fun listed => ?_,
      fun listed => ?_, ?_⟩⟩
    · cases named.merged.mp listed
    · cases named.conflicts.mp listed
    · rw [(alike b).1]
      exact written_record own b
    · cases named'.merged.mp listed
    · cases named'.conflicts.mp listed
    · rw [(alike' b).1]
      exact written_record own b

omit [Serde] in
/-- A reconciliation of the two is not the older of them. -/
theorem reconciled_ne {recA recB rec : Record} (older : peer.revision < last.revision)
    (room : last.revision.counter ≠ maxCounter)
    (pair : recA = last ∧ recB = peer ∨ recA = peer ∧ recB = last)
    (made : rec = tombstoneWinner recA recB (losslessCap recA recB) ∨
      ∃ body, rec = buildMerged recA recB body) : rec.revision ≠ peer.revision := by
  have roomPeer : peer.revision.counter ≠ maxCounter := by
    rintro full
    rcases (Revision.lt_iff _ _).mp older with lt | ⟨same, -⟩
    · exact absurd (UInt64.lt_iff_toNat_lt.mp (full ▸ lt)) (not_lt.mpr (by
        have small := last.revision.counter.toNat_lt
        exact Nat.le_of_lt_succ small))
    · exact room (same ▸ full)
  rcases made with rfl | ⟨body, rfl⟩
  · rcases pair with ⟨rfl, rfl⟩ | ⟨rfl, rfl⟩
    · rw [tombstoneWinner, if_pos older.le]
      exact older.ne'
    · rw [tombstoneWinner, if_neg (not_le.mpr older)]
      exact older.ne'
  · have grown : peer.revision.counter <
        max recA.revision.counter recB.revision.counter + 1 := by
      rcases pair with ⟨rfl, rfl⟩ | ⟨rfl, rfl⟩
      · exact (lt_max_add_one room roomPeer).2
      · exact (lt_max_add_one roomPeer room).1
    intro same
    exact grown.ne' (congrArg Revision.counter same)

theorem notReverted_iff (distinct : a ≠ b) (atA : (w a).getRaw key = some last)
    (atB : (w b).getRaw key = some peer) (older : peer.revision < last.revision)
    (room : last.revision.counter ≠ maxCounter) :
    NotReverted blobs ancestry nowMs a b w key peer.revision ↔
      last.revision ∉ peer.ancestors := by
  have ownA := MemStore.key_of_getRaw atA
  have ownB := MemStore.key_of_getRaw atB
  obtain ⟨w', report, ran, -, alike⟩ := exec_sync_at distinct blobs ancestry nowMs w key
  obtain ⟨w'', report', ran', -, alike'⟩ :=
    exec_sync_at distinct.symm blobs ancestry nowMs w key
  have still : ∀ rec : Record, written w b rec a = w a := fun rec => written_of_ne distinct
  rw [outcomeAt, atA, atB] at alike alike'
  constructor
  · rintro ⟨-, second⟩ listed
    have ahead : relate peer last = .aAhead := by
      rw [relate, if_neg older.ne, if_pos listed]
    have forwards : outcome blobs ancestry (some peer) (some last) = .forwardToB peer := by
      simp only [outcome, ahead]
    rw [forwards] at alike'
    have held : ((w'' a).getRaw key).map Record.revision = some peer.revision := by
      rw [(alike' a).1]
      exact written_revision ownB a
    obtain ⟨r, stored, same⟩ := Option.map_eq_some_iff.mp held
    rw [ran'] at second
    exact second r stored same
  · intro unlisted
    have apart : relate last peer ≠ .bAhead := fun ahead => unlisted (relate_bAhead ahead).2
    have apart' : relate peer last ≠ .aAhead := fun ahead => unlisted (relate_aAhead ahead).2
    have unmoved : ∀ {r : Record}, (w a).getRaw key = some r → r.revision ≠ peer.revision := by
      intro r stored
      cases atA.symm.trans stored
      exact older.ne'
    have merged : ∀ {rec r : Record} {w : σ → MemStore}, rec.key = key →
        rec.revision ≠ peer.revision → (written w a rec a).getRaw key = some r →
          r.revision ≠ peer.revision := by
      intro rec r w own other stored
      have revision := written_revision (w := w) own a
      rw [stored, Option.map_some, Option.some_inj] at revision
      rwa [revision]
    refine ⟨fun r stored => ?_, fun r stored => ?_⟩
    · rw [ran, (alike a).1] at stored
      simp only [outcome] at stored
      cases related : relate last peer with
      | inSync => exact unmoved (by simpa only [related, Outcome.stores, Option.mem_def] using stored)
      | aAhead =>
        simp only [related, Outcome.stores, still] at stored
        exact unmoved stored
      | bAhead => exact absurd related apart
      | diverged =>
        have own := @divergedOutcome_writesAt _ blobs ancestry _ key last peer ownA ownB
        rcases @divergedOutcome_cases _ _ blobs ancestry last peer with is | ⟨rec, is, made⟩
        · simp only [related, is, Outcome.stores] at stored
          exact unmoved stored
        · simp only [related, is, Outcome.stores, written_of_ne distinct] at stored
          rw [is] at own
          exact merged own (reconciled_ne older room (Or.inl ⟨rfl, rfl⟩) made) stored
    · rw [ran', (alike' a).1] at stored
      simp only [outcome] at stored
      cases related : relate peer last with
      | inSync => exact unmoved (by simpa only [related, Outcome.stores, Option.mem_def] using stored)
      | aAhead => exact absurd related apart'
      | bAhead =>
        simp only [related, Outcome.stores, still] at stored
        exact unmoved stored
      | diverged =>
        have own := @divergedOutcome_writesAt _ blobs ancestry _ key peer last ownB ownA
        rcases @divergedOutcome_cases _ _ blobs ancestry peer last with is | ⟨rec, is, made⟩
        · simp only [related, is, Outcome.stores] at stored
          exact unmoved stored
        · simp only [related, is, Outcome.stores] at stored
          rw [is] at own
          exact merged own (reconciled_ne older room (Or.inr ⟨rfl, rfl⟩) made) stored

/-- A store takes a run of writes at a key where a peer holds the record it started from.
Within the cap, a sync fast-forwards the peer exactly when fewer than `cap` of the revisions
the run has seen are newer than the first, the last one apart, and the peer does not list
the last one. As long as the counter does not wrap, the latter alone decides whether a sync
can put the older record back. -/
theorem write_run_forwards_iff (distinct : a ≠ b) {w₀ : σ → MemStore} {replaced : List Revision}
    {s : MemStore} {first : Record} (atA : (w₀ a).getRaw key = some first)
    (atB : (w₀ b).getRaw key = some peer) (same : first.revision = peer.revision)
    (run : WriteRun key (w₀ a) replaced s) (wrote : replaced ≠ [])
    (final : s.getRaw key = some last) (fits : (w₀ a).cap < 2 ^ 64) :
    (replaced.length ≤ (w₀ a).cap →
      (Forwarded blobs ancestry nowMs a b (Function.update w₀ a s) key last ↔
        newerThan first.revision last.revision (replaced ++ first.ancestors) < (w₀ a).cap ∧
          last.revision ∉ peer.ancestors)) ∧
    (first.revision.counter.toNat + replaced.length + 1 < 2 ^ 64 →
      (NotReverted blobs ancestry nowMs a b (Function.update w₀ a s) key first.revision ↔
        last.revision ∉ peer.ancestors)) := by
  have ownPeer : (Function.update w₀ a s b).getRaw key = some peer := by
    rwa [Function.update_of_ne distinct.symm]
  have ownLast : (Function.update w₀ a s a).getRaw key = some last := by
    rwa [Function.update_self]
  have some : 0 < replaced.length := List.length_pos_iff.mpr wrote
  refine ⟨fun within => ?_, fun unwrapped => ?_⟩
  · have few : replaced.length < 2 ^ 64 := within.trans_lt fits
    obtain ⟨kept, -⟩ := run.kept few atA final
    have other : last.revision ≠ peer.revision :=
      same ▸ revision_ne_of_counter kept.counter some few
    have listed : peer.revision ∈ last.ancestors ↔
        newerThan first.revision last.revision (replaced ++ first.ancestors) < (w₀ a).cap := by
      have inLineage := kept.kept
      rw [or_iff_right wrote, Record.lineage, List.mem_cons,
        or_iff_right (same ▸ other.symm)] at inLineage
      rw [← same, inLineage]
    rw [forwarded_iff distinct ownLast ownPeer, ← listed]
    unfold relate
    rw [if_neg other, if_neg other.symm]
    by_cases known : peer.revision ∈ last.ancestors <;>
      by_cases known' : last.revision ∈ peer.ancestors <;> simp [known, known']
  · have few : replaced.length < 2 ^ 64 := by omega
    obtain ⟨kept, -⟩ := run.kept few atA final
    have value := congrArg UInt64.toNat kept.counter
    rw [toNat_add_ofNat] at value
    have older : peer.revision < last.revision := by
      rw [← same, Revision.lt_iff, UInt64.lt_iff_toNat_lt]
      left
      omega
    have room : last.revision.counter ≠ maxCounter := by
      intro full
      rw [full] at value
      change 2 ^ 64 - 1 = _ at value
      omega
    rw [same]
    exact notReverted_iff distinct ownLast ownPeer older room

end Peer

end Writes

/-! ## One update -/

section Updates

attribute [local instance] sampleBlake3 plainSerde

/-- A store that holds the one record. -/
def holding (cap : Nat) (cap_pos : 0 < cap) (r : Record) : MemStore :=
  (MemStore.empty cap cap_pos).insert r

theorem holding_getRaw (cap : Nat) (cap_pos : 0 < cap) (r : Record) :
    (holding cap cap_pos r).getRaw r.key = some r := by
  rw [holding, MemStore.getRaw_insert, if_pos rfl]

/-- One update of the held record, as a run. -/
theorem holding_run {cap : Nat} {cap_pos : 0 < cap} {r : Record} (live : r.isTombstone = false)
    (body : Body) :
    WriteRun r.key (holding cap cap_pos r) [r.revision] ((holding cap cap_pos r).insert
      (updatedRecord r (r.update body r.metadata) 0 cap)) := by
  have stored := holding_getRaw cap cap_pos r
  have write := @WriteStep.update _ r.key r (holding cap cap_pos r) 0 body r.metadata live
  rw [put_update stored live] at write
  exact .step .start stored write

theorem updated_getRaw {cap : Nat} {cap_pos : 0 < cap} {r : Record} {body : Body} :
    ((holding cap cap_pos r).insert (updatedRecord r (r.update body r.metadata) 0 cap)).getRaw
      r.key = some (updatedRecord r (r.update body r.metadata) 0 cap) := by
  rw [MemStore.getRaw_insert]
  exact if_pos rfl

/-- A topic whose counter was restarted: it lists a newer revision as its ancestor. -/
def restartedTopic : Record :=
  { topicAt rustKey 0 "v0" with ancestors := [⟨1, .of (asBytes "v1")⟩] }

/-- Under a cap of 1, one update of it drops the revision the peer holds, and the sync
does not fast-forward. -/
theorem restarted_not_forwarded :
    ∃ s last, WriteRun rustKey (holding 1 (by decide) restartedTopic) [restartedTopic.revision] s ∧
      s.getRaw rustKey = some last ∧
      ¬ Forwarded (fun _ => .ok none) false 0 false true
        (Function.update (fun _ => holding 1 (by decide) restartedTopic) false s) rustKey last := by
  have run := @holding_run 1 (by decide) restartedTopic rfl (.inline [])
  have final := @updated_getRaw 1 (by decide) restartedTopic (.inline [])
  refine ⟨_, _, run, final, fun forwarded => ?_⟩
  have related := ((forwarded_iff Bool.false_ne_true (by rwa [Function.update_self])
    (holding_getRaw 1 (by decide) restartedTopic)).mp forwarded).1
  revert related
  decide

/-- Under a cap of 2, one update of a topic that lists nothing is fast-forwarded. -/
theorem topic_forwarded :
    ∃ s last, WriteRun rustKey (holding 2 (by decide) (topicAt rustKey 0 "v0"))
        [(topicAt rustKey 0 "v0").revision] s ∧ s.getRaw rustKey = some last ∧
      Forwarded (fun _ => .ok none) false 0 false true
        (Function.update (fun _ => holding 2 (by decide) (topicAt rustKey 0 "v0")) false s)
        rustKey last := by
  have run := @holding_run 2 (by decide) (topicAt rustKey 0 "v0") rfl (.inline (asBytes "v1"))
  have final := @updated_getRaw 2 (by decide) (topicAt rustKey 0 "v0") (.inline (asBytes "v1"))
  have held := holding_getRaw 2 (by decide) (topicAt rustKey 0 "v0")
  have forwards := @write_run_forwards_iff _ Bool _ _ (fun _ => .ok none) false 0 false true
    rustKey _ _ Bool.false_ne_true (fun _ => holding 2 (by decide) (topicAt rustKey 0 "v0")) _ _ _
    held held rfl run (List.cons_ne_nil _ _) final (by decide)
  exact ⟨_, _, run, final, (forwards.1 (by decide)).mpr ⟨by decide, by decide⟩⟩

end Updates

end Gonzalo.Core
