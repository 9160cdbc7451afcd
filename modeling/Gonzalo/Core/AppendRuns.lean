import Gonzalo.Core.AncestorCap
import Gonzalo.Core.AppendOnly
import Gonzalo.Core.QuietRuns

/-!
# Appends at any number of replicas

Clients append lines to one append-only record at any replica while syncs run. As long as
no sync merges two bodies that have a line in common past their shared run, nothing is lost
and nothing is doubled: every record's lines are those of the start and some appended ones,
each once; what a replica was given stays there; and whatever a record lists as an ancestor
has no line that it lacks.
-/

set_option autoImplicit false

namespace Gonzalo.Core
open Gonzalo.Lib

section Appends

variable [Blake3] {σ ι ρ : Type}

/-- A client appends lines that are neither in the start body nor in a committed append. -/
def Appends (base : Bytes) : Edited.Edit σ ι ρ (List Bytes) := fun w prev body lines =>
  body = .inline (prev.body.bytes ++ textOf lines) ∧ lines.Nodup ∧
    ∀ line ∈ lines, newline ∉ line ∧ line ∉ lineTexts base ∧ ∀ entry ∈ w.log, line ∉ entry.2

/-- Such an append to a record whose counter has a successor. -/
def CountedAppends (base : Bytes) : Edited.Edit σ ι ρ (List Bytes) := fun w prev body lines =>
  Appends base w prev body lines ∧ prev.revision.counter ≠ maxCounter

/-- What a sync writes at the key does not merge two bodies that have a line in common past
their shared run, nor count past the last counter. -/
def Untangled (peers : ι → σ × σ) (key : RecordKey) (w : Edited σ ι ρ (List Bytes)) (i : ι)
    (req : SyncReq σ) : Prop :=
  ∀ name rec expected recA recB, req = .store name (.putRaw rec expected) → rec.key = key →
    w.fleet.seen i (peers i).1 key = some (some recA) →
    w.fleet.seen i (peers i).2 key = some (some recB) → relate recA recB = .diverged →
    (∀ line ∈ pastShared (lineTexts recB.body.bytes) (lineTexts recA.body.bytes),
      line ∉ pastShared (lineTexts recA.body.bytes) (lineTexts recB.body.bytes)) ∧
    max recA.revision.counter recB.revision.counter ≠ maxCounter

variable {base : Bytes} {floor : UInt64} {log : List (σ × List Bytes)}

/-- A record lists `x` as an ancestor because it is older than the start, or because it has
all lines of the body that `x` is a revision of. -/
def Listed (floor : UInt64) (bytes : Bytes) (x : Revision) : Prop :=
  x.counter < floor ∨ ∀ older, x.hash = .of older → lineTexts older ⊆ lineTexts bytes

/-- What every record of a run is. -/
structure Grown (base : Bytes) (floor : UInt64) (log : List (σ × List Bytes)) (r : Record) :
    Prop where
  mergeClass : r.kind.mergeClass = .appendOnly
  inline : r.body = .inline r.body.bytes
  finished : Terminated r.body.bytes
  hash : r.revision.hash = .of r.body.bytes
  counter : floor ≤ r.revision.counter
  lines : ∃ more, lineTexts r.body.bytes = lineTexts base ++ more ∧ more.Nodup ∧
    ∀ line ∈ more, ∃ entry ∈ log, line ∈ entry.2
  ancestors : ∀ x ∈ r.ancestors, Listed floor r.body.bytes x

/-- A record never comes to lack a line. -/
def Gains (old new : Record) : Prop := lineTexts old.body.bytes ⊆ lineTexts new.body.bytes

theorem Grown.live {r : Record} (grown : Grown base floor log r) : r.isTombstone = false := by
  rw [Record.isTombstone, decide_eq_false_iff_not]
  intro dead
  have := grown.mergeClass
  rw [dead] at this
  cases this

theorem Grown.mono {r : Record} (entry : σ × List Bytes) (grown : Grown base floor log r) :
    Grown base floor (entry :: log) r := by
  obtain ⟨more, lines, once, logged⟩ := grown.lines
  refine { grown with lines := ⟨more, lines, once, fun line member => ?_⟩ }
  obtain ⟨entry', before, inEntry⟩ := logged line member
  exact ⟨entry', List.mem_cons_of_mem _ before, inEntry⟩

/-- One revision, one body. -/
theorem Grown.bytes_eq (collisionFree : Function.Injective Blake3.hashHex) {r r' : Record}
    (grown : Grown base floor log r) (grown' : Grown base floor log r')
    (same : r.revision = r'.revision) : r.body.bytes = r'.body.bytes := by
  have hashes := (grown.hash.symm.trans (congrArg Revision.hash same)).trans grown'.hash
  exact collisionFree (congrArg ContentHash.text hashes)

theorem Listed.gains {old new : Bytes} {x : Revision} (listed : Listed floor old x)
    (gains : lineTexts old ⊆ lineTexts new) : Listed floor new x :=
  listed.imp id fun holds older is => List.Subset.trans (holds older is) gains

/-- The lineage of a record is listed by whatever has all its lines. -/
theorem Grown.lineage (collisionFree : Function.Injective Blake3.hashHex) {r : Record}
    (grown : Grown base floor log r) {bytes : Bytes}
    (gains : lineTexts r.body.bytes ⊆ lineTexts bytes) :
    ∀ x ∈ r.lineage, Listed floor bytes x := by
  intro x member
  rcases List.mem_cons.mp member with rfl | inherited
  · refine Or.inr fun older is => ?_
    rw [← collisionFree (congrArg ContentHash.text (grown.hash.symm.trans is))]
    exact gains
  · exact (grown.ancestors x inherited).gains gains

theorem listed_foldAncestors (collisionFree : Function.Injective Blake3.hashHex)
    {current : Record} (grown : Grown base floor log current) {bytes : Bytes}
    (gains : lineTexts current.body.bytes ⊆ lineTexts bytes) {stored : Revision}
    {incoming : List Revision} (supplied : ∀ x ∈ incoming, Listed floor bytes x) {cap : Nat} :
    ∀ x ∈ foldAncestors stored incoming (some current) cap, Listed floor bytes x := by
  intro x member
  obtain ⟨-, listed | ⟨c, is, inherited⟩⟩ := mem_foldAncestors member
  · exact supplied x listed
  · cases is
    exact grown.lineage collisionFree gains x inherited

theorem Grown.rawRecord (collisionFree : Function.Injective Blake3.hashHex) {new current : Record}
    (grown : Grown base floor log new) (grownC : Grown base floor log current)
    (gains : Gains current new) (cap : Nat) :
    Grown base floor log (rawRecord (some current) new cap) :=
  { grown with ancestors := listed_foldAncestors collisionFree grownC gains grown.ancestors }

/-- An append files a grown record with the new lines at its end. -/
theorem Grown.filed (collisionFree : Function.Injective Blake3.hashHex) {prev current next : Record}
    {body : Body} {lines : List Bytes} {name : σ} {w : Edited σ ι ρ (List Bytes)}
    (grown : Grown base floor w.log prev) (grownC : Grown base floor w.log current)
    (appends : CountedAppends base w prev body lines) (filed : Edited.Filed prev current next body) :
    Grown base floor ((name, lines) :: w.log) next ∧ Gains current next := by
  obtain ⟨⟨rfl, distinct, fresh⟩, not_last⟩ := appends
  obtain ⟨more, texts, once, logged⟩ := grown.lines
  have one : ∀ line ∈ lines, newline ∉ line := fun line member => (fresh line member).1
  have lines' : lineTexts next.body.bytes = lineTexts prev.body.bytes ++ lines := by
    rw [filed.bodyIs, Body.bytes_inline, lineTexts_append grown.finished, lineTexts_textOf one]
  have bytes := grownC.bytes_eq collisionFree grown filed.fresh
  have gains : Gains current next := by
    rw [Gains, bytes, lines']
    exact List.subset_append_left _ _
  refine ⟨⟨filed.kind ▸ grown.mergeClass, ?_, ?_, ?_, ?_, ⟨more ++ lines, ?_, ?_, ?_⟩, ?_⟩, gains⟩
  · rw [filed.bodyIs, Body.bytes_inline]
  · rw [filed.bodyIs]
    exact terminated_append grown.finished (terminated_textOf lines)
  · rw [filed.revision, filed.bodyIs]
    rfl
  · rw [filed.revision]
    exact grown.counter.trans (lt_add_one_of_ne_max not_last).le
  · rw [lines', texts, List.append_assoc]
  · refine List.nodup_append.mpr ⟨once, distinct, fun x old y new same => ?_⟩
    subst same
    obtain ⟨entry, committed, inEntry⟩ := logged x old
    exact (fresh x new).2.2 entry committed inEntry
  · intro line member
    rcases List.mem_append.mp member with old | new
    · obtain ⟨entry, committed, inEntry⟩ := logged line old
      exact ⟨entry, List.mem_cons_of_mem _ committed, inEntry⟩
    · exact ⟨(name, lines), List.mem_cons_self, new⟩
  · obtain ⟨cap, ancestors⟩ := filed.ancestors
    rw [ancestors]
    exact listed_foldAncestors collisionFree grownC gains (List.forall_mem_nil _)

/-- What is ahead has all the lines of what it is ahead of. -/
theorem Grown.gains_of_listed {x y : Record} (grownX : Grown base floor log x)
    (grownY : Grown base floor log y) (listed : y.revision ∈ x.ancestors) : Gains y x := by
  rcases grownX.ancestors _ listed with older | has
  · exact absurd grownY.counter (not_le.mpr older)
  · exact has _ grownY.hash

/-- The merge of two grown records is one, and has the lines of both. -/
theorem Grown.merged [Serde] (collisionFree : Function.Injective Blake3.hashHex)
    {recA recB rec : Record} (grownA : Grown base floor log recA) (grownB : Grown base floor log recB)
    (reconciles : Reconciles recA recB rec)
    (disjoint : ∀ line ∈ pastShared (lineTexts recB.body.bytes) (lineTexts recA.body.bytes),
      line ∉ pastShared (lineTexts recA.body.bytes) (lineTexts recB.body.bytes))
    (not_last : max recA.revision.counter recB.revision.counter ≠ maxCounter) :
    Grown base floor log rec ∧ Gains recA rec ∧ Gains recB rec := by
  obtain ⟨dead, -⟩ | ⟨-, -, origin, body, merged, rfl⟩ := reconciles
  · simp [grownA.live] at dead
  rw [grownA.mergeClass, merge, appendOnlyMerge_eq] at merged
  have keeps := keepsLines_merge recA.body.bytes recB.body.bytes
  have finished := terminated_merge grownA.finished grownB.finished
  generalize finishLine recA.body.bytes (tailLines recA.body.bytes recB.body.bytes) ++
    (tailLines recA.body.bytes recB.body.bytes).flatten = bytes at merged keeps finished
  cases merged
  obtain ⟨moreA, textsA, onceA, loggedA⟩ := grownA.lines
  obtain ⟨moreB, textsB, onceB, loggedB⟩ := grownB.lines
  have texts := keeps.texts
  rw [textsA, textsB, pastShared_append_append] at texts disjoint
  rw [pastShared_append_append] at disjoint
  have gainsA : lineTexts recA.body.bytes ⊆ lineTexts bytes := by
    rw [keeps.texts]
    exact List.subset_append_left _ _
  have gainsB : lineTexts recB.body.bytes ⊆ lineTexts bytes := keeps.theirsInOrder.subset
  refine ⟨⟨grownA.mergeClass, rfl, finished, rfl, ?_, ⟨moreA ++ pastShared moreA moreB, ?_, ?_, ?_⟩,
    fun x member => ?_⟩, gainsA, gainsB⟩
  · exact (grownA.counter.trans (le_max_left _ _)).trans (lt_add_one_of_ne_max not_last).le
  · rw [← List.append_assoc]
    exact texts
  · exact nodup_append_pastShared onceA onceB disjoint
  · intro line member
    rcases List.mem_append.mp member with ours | theirs
    · exact loggedA line ours
    · exact loggedB line ((pastShared_sublist _ _).subset theirs)
  · obtain ⟨-, listed | ⟨_, is, -⟩⟩ := mem_foldAncestors member
    · rcases List.mem_append.mp listed with ours | theirs
      · exact grownA.lineage collisionFree gainsA x ours
      · exact grownB.lineage collisionFree gainsB x theirs
    · cases is

/-- What a sync files, if its merge is untangled. -/
theorem Grown.justified [Serde] (collisionFree : Function.Injective Blake3.hashHex) {a b name : σ}
    {recA recB rec current : Record} (grownA : Grown base floor log recA)
    (grownB : Grown base floor log recB) (grownC : Grown base floor log current)
    (justified : Justified a b (some recA) (some recB) name rec (some current.revision))
    (untangled : relate recA recB = .diverged →
      (∀ line ∈ pastShared (lineTexts recB.body.bytes) (lineTexts recA.body.bytes),
        line ∉ pastShared (lineTexts recA.body.bytes) (lineTexts recB.body.bytes)) ∧
      max recA.revision.counter recB.revision.counter ≠ maxCounter) :
    Grown base floor log rec ∧ Gains current rec := by
  -- the record that was read at the written side has the body of the current one
  have reads : ∀ {r : Record}, Grown base floor log r → some current.revision = some r.revision →
      Gains r rec → Gains current rec := fun grown same gains => by
    rw [Gains, grownC.bytes_eq collisionFree grown (Option.some.inj same)]
    exact gains
  generalize expects : some current.revision = expected at justified
  cases justified with
  | forwardB _ _ ahead =>
    exact ⟨grownA, reads grownB expects (grownA.gains_of_listed grownB (relate_aAhead ahead).2)⟩
  | forwardA _ _ ahead =>
    exact ⟨grownB, reads grownA expects (grownB.gains_of_listed grownA (relate_bAhead ahead).2)⟩
  | reconcileA _ _ _ diverged reconciles =>
    obtain ⟨disjoint, not_last⟩ := untangled diverged
    obtain ⟨grown, gainsA, -⟩ := grownA.merged collisionFree grownB reconciles disjoint not_last
    exact ⟨grown, reads grownA expects gainsA⟩
  | reconcileB _ _ _ diverged reconciles =>
    obtain ⟨disjoint, not_last⟩ := untangled diverged
    obtain ⟨grown, -, gainsB⟩ := grownA.merged collisionFree grownB reconciles disjoint not_last
    exact ⟨grown, reads grownB expects gainsB⟩

/-! ## Runs -/

variable {key : RecordKey}

/-- Everything held is grown, and the lines of a committed append stay where they were put. -/
structure Lossless (base : Bytes) (floor : UInt64) (key : RecordKey)
    (w : Edited σ ι ρ (List Bytes)) : Prop where
  holds : Edited.Holds (Grown base floor) key w
  fresh : ∀ entry ∈ w.log, ∀ line ∈ entry.2, line ∉ lineTexts base
  kept : ∀ entry ∈ w.log, ∀ r, w.getRaw entry.1 key = some r →
    ∀ line ∈ entry.2, line ∈ lineTexts r.body.bytes

variable [DecidableEq σ]

theorem Lossless.moved {w w' : Edited σ ι ρ (List Bytes)} (lossless : Lossless base floor key w)
    (holds : Edited.Holds (Grown base floor) key w')
    (moves : Edited.Moves (CountedAppends base) (Grown base floor) Gains key w w') :
    Lossless base floor key w' := by
  have later : ∀ {name : σ} {old new : Record}, w.getRaw name key = some old → Gains old new →
      (∀ other, w'.getRaw other key = if other = name then some new else w.getRaw other key) →
      ∀ entry ∈ w.log, ∀ r, w'.getRaw entry.1 key = some r →
        ∀ line ∈ entry.2, line ∈ lineTexts r.body.bytes := by
    intro name old new held gains stored entry member r at_ line inEntry
    rw [stored] at at_
    split at at_
    next here =>
      cases at_
      exact gains (lossless.kept entry member old (here ▸ held) line inEntry)
    · exact lossless.kept entry member r at_ line inEntry
  cases moves with
  | same stored log =>
    refine ⟨holds, log ▸ lossless.fresh, fun entry member r at_ => ?_⟩
    rw [stored] at at_
    exact lossless.kept entry (log ▸ member) r at_
  | synced name old new held gains stored log =>
    exact ⟨holds, log ▸ lossless.fresh, log ▸ later held gains stored⟩
  | edited name old new prev body lines held gains known permitted filed stored log =>
    refine ⟨holds, fun entry member => ?_, fun entry member => ?_⟩
    · rw [log] at member
      rcases List.mem_cons.mp member with rfl | before
      · exact fun line inEntry => (permitted.1.2.2 line inEntry).2.1
      · exact lossless.fresh entry before
    · rw [log] at member
      rcases List.mem_cons.mp member with rfl | before
      · intro r at_ line inEntry
        rw [stored, if_pos rfl] at at_
        cases at_
        rw [filed.bodyIs, permitted.1.1, Body.bytes_inline, lineTexts_append known.finished,
          lineTexts_textOf fun line member => (permitted.1.2.2 line member).1]
        exact List.mem_append_right _ inEntry
      · exact later held gains stored entry before

variable [DecidableEq ι] [DecidableEq ρ] [Serde] {peers : ι → σ × σ}
  {c₀ c : EditedPool σ ι ρ (List Bytes)}

/-- Every replica holds an append-only record with the start body, and nobody has done
anything. -/
structure Starts (base : Bytes) (key : RecordKey) (c : EditedPool σ ι ρ (List Bytes)) : Prop where
  stored : ∀ name, ∃ r, c.world.getRaw name key = some r ∧ r.kind.mergeClass = .appendOnly ∧
    r.body = .inline base ∧ r.revision.hash = .of base
  unseen : ∀ i name, c.world.fleet.seen i name key = none
  unheld : ∀ e, c.world.held e = none
  unlogged : c.world.log = []
  idle : ∀ i, c.clients i = none

/-- The start body ends a line, and what the start records list as ancestors is older than
all of them, or a revision of the same body. -/
structure Seasoned (base : Bytes) (floor : UInt64) (key : RecordKey)
    (c : EditedPool σ ι ρ (List Bytes)) : Prop where
  finished : Terminated base
  older : ∀ name r, c.world.getRaw name key = some r → floor ≤ r.revision.counter ∧
    ∀ x ∈ r.ancestors, x.counter < floor ∨ x.hash = .of base

/-- Appends and syncs, and nothing else. -/
abbrev appendRules (base : Bytes) (peers : ι → σ × σ) (key : RecordKey) :
    Rules (syncInterface σ) (Edited σ ι ρ (List Bytes)) ι CoreError SyncReport :=
  Edited.rules peers key (Appends base) fun _ _ _ => True

/-- The same, with no merge that is tangled and no counter that starts again. -/
abbrev untangledRules (base : Bytes) (peers : ι → σ × σ) (key : RecordKey) :
    Rules (syncInterface σ) (Edited σ ι ρ (List Bytes)) ι CoreError SyncReport :=
  Edited.rules peers key (CountedAppends base) (Untangled peers key)

/-- A sync of any two stores reports no write of the key. -/
def Quiescent (key : RecordKey) (w : σ → MemStore) : Prop :=
  ∀ a b, a ≠ b → ∃ blobs ancestry nowMs report,
    ((syncWithAncestry a b ancestry).exec (serveStores blobs nowMs) w).2 = .ok report ∧
      key ∉ report.copiedToA ∧ key ∉ report.copiedToB ∧ key ∉ report.fastForwardedToA ∧
      key ∉ report.fastForwardedToB ∧ key ∉ report.merged

omit [DecidableEq σ] [DecidableEq ι] [DecidableEq ρ] [Serde] in
theorem lossless_of_starts (collisionFree : Function.Injective Blake3.hashHex)
    (starts : Starts base key c₀) (seasoned : Seasoned base floor key c₀) :
    Lossless base floor key c₀.world where
  holds :=
    { stored := fun name => by
        obtain ⟨r, held, mergeClass, body, hash⟩ := starts.stored name
        obtain ⟨counter, ancestors⟩ := seasoned.older name r held
        refine ⟨r, held, mergeClass, by rw [body, Body.bytes_inline], ?_, ?_, counter,
          ⟨[], ?_, List.nodup_nil, List.forall_mem_nil _⟩, fun x member => ?_⟩
        · rw [body]
          exact seasoned.finished
        · rw [hash, body, Body.bytes_inline]
        · rw [body, Body.bytes_inline, List.append_nil]
        · refine (ancestors x member).imp id fun same older is => ?_
          rw [← collisionFree (congrArg ContentHash.text (same.symm.trans is)), body,
            Body.bytes_inline]
          exact List.Subset.refl _
      seen := fun i name found noted => by simp [starts.unseen] at noted
      held := fun e name r noted => by simp [starts.unheld] at noted }
  fresh := by simp [starts.unlogged]
  kept := by simp [starts.unlogged]

theorem lossless_reaches (distinct : ∀ i, (peers i).1 ≠ (peers i).2)
    (collisionFree : Function.Injective Blake3.hashHex) (covered : Edited.Covered peers c₀)
    (lossless : Lossless base floor key c₀.world)
    (run : Pool.Reaches (untangledRules base peers key) c₀ c) : Lossless base floor key c.world := by
  refine (Edited.invariant distinct ?_ ?_ covered lossless run).1
  · intro w fleet i req answer lossless untangled guarded served
    obtain ⟨holds, moves⟩ := @Edited.Holds.served _ _ _ _ _ _ _ _ (CountedAppends base)
      (Grown base floor) Gains key w fleet peers i req answer lossless.holds guarded served
      fun name rec recA recB current cap expected asked own seenA seenB grownA grownB grownC
          justified => by
        obtain ⟨grown, gains⟩ := grownA.justified collisionFree grownB grownC justified
          (untangled name rec expected recA recB asked own seenA seenB)
        exact ⟨grown.rawRecord collisionFree grownC gains cap, gains⟩
    exact lossless.moved holds moves
  · intro w w' lossless step
    obtain ⟨holds, moves⟩ := @Edited.Holds.client _ _ _ _ _ _ _ (CountedAppends base)
      (Grown base floor) Gains key w w' lossless.holds step (fun entry r grown => grown.mono entry)
      fun name prev body lines current next appends grown grownC filed =>
        grown.filed collisionFree grownC appends filed
    exact lossless.moved holds moves

/-- Two grown records between which a sync writes nothing have one revision. -/
theorem Grown.inSync {log : List (σ × List Bytes)} {a b : σ} (distinct : a ≠ b)
    {w : σ → MemStore} {recA recB : Record}
    (quiescent : Quiescent key w) (atA : (w a).getRaw key = some recA)
    (atB : (w b).getRaw key = some recB) (grownA : Grown base floor log recA)
    (grownB : Grown base floor log recB) : recA.revision = recB.revision := by
  obtain ⟨blobs, ancestry, nowMs, report, ran, -, -, notA, notB, notMerged⟩ := quiescent a b distinct
  obtain ⟨w', report', ran', reported, -⟩ := exec_sync_at distinct blobs ancestry nowMs w key
  rw [ran'] at ran
  cases ran
  rw [outcomeAt, atA, atB] at reported
  cases related : relate recA recB with
  | inSync => exact relate_inSync.mp related
  | aAhead => exact absurd (reported.fastForwardedToB.mpr (arm_forwardToB_iff.mpr related)) notB
  | bAhead => exact absurd (reported.fastForwardedToA.mpr (arm_forwardToA_iff.mpr related)) notA
  | diverged =>
    refine absurd (reported.merged.mpr ?_) notMerged
    rw [outcome, related]
    simp only [divergedOutcome, grownA.live, grownB.live, grownA.mergeClass, merge,
      appendOnlyMerge_eq, Outcome.arm]

/-- If no sync merges bodies that have a line in common past their shared run, all replicas
have one body once syncs write nothing, and it has every appended line exactly once. -/
theorem appends_exactly_once (distinct : ∀ i, (peers i).1 ≠ (peers i).2)
    (collisionFree : Function.Injective Blake3.hashHex) (starts : Starts base key c₀)
    (seasoned : Seasoned base floor key c₀)
    (run : Pool.Reaches (untangledRules base peers key) c₀ c)
    (quiescent : Quiescent key c.world.fleet.stores) (name : σ) :
    ∃ r, c.world.getRaw name key = some r ∧
      (∀ other, (c.world.getRaw other key).map Record.body = some r.body) ∧
      ∀ entry ∈ c.world.log, ∀ line ∈ entry.2, (lineTexts r.body.bytes).count line = 1 := by
  have lossless := lossless_reaches distinct collisionFree (Edited.covered_of_idle starts.idle)
    (lossless_of_starts collisionFree starts seasoned) run
  obtain ⟨r, held, grown⟩ := lossless.holds.stored name
  have same : ∀ other r', c.world.getRaw other key = some r' → r'.body = r.body := by
    intro other r' held'
    by_cases here : other = name
    · subst here
      cases held.symm.trans held'
      rfl
    · obtain ⟨r'', held'', grown'⟩ := lossless.holds.stored other
      cases held'.symm.trans held''
      have revision := Grown.inSync here quiescent held' held grown' grown
      rw [grown'.inline, grown.inline, grown'.bytes_eq collisionFree grown revision]
  refine ⟨r, held, fun other => ?_, fun entry member line inEntry => ?_⟩
  · obtain ⟨r', held', -⟩ := lossless.holds.stored other
    rw [held', Option.map_some, same other r' held']
  · obtain ⟨r', held', -⟩ := lossless.holds.stored entry.1
    have has := lossless.kept entry member r' held' line inEntry
    rw [same entry.1 r' held'] at has
    obtain ⟨more, texts, once, -⟩ := grown.lines
    have fresh := lossless.fresh entry member line inEntry
    rw [texts, List.mem_append] at has
    rw [texts, List.count_append, List.count_eq_zero_of_not_mem fresh,
      List.count_eq_one_of_mem once (has.resolve_left fresh)]

end Appends

/-! ## A merge that is merged again -/

section Raced

attribute [local instance] sampleBlake3 plainSerde

/-- The line all replicas start from. -/
def xLine : Bytes := asBytes "x\n"

/-- Replicas of a topic with that line. -/
def topics (σ ι ρ : Type) : EditedPool σ ι ρ (List Bytes) where
  world :=
    { fleet :=
        { stores := fun _ => holding 32 cap32_pos (topicAt rustKey 0 "x\n")
          seen := fun _ _ _ => none
          recreated := fun _ _ => False }
      held := fun _ => none
      log := [] }
  clients := fun _ => none

theorem terminated_xLine : Terminated xLine := by
  have last : xLine.getLast? = some newline := by decide
  simp [Terminated, last]

theorem topics_starts (σ ι ρ : Type) : Starts xLine rustKey (topics σ ι ρ) where
  stored _ := ⟨_, holding_getRaw 32 (by decide) (topicAt rustKey 0 "x\n"), rfl, rfl, rfl⟩
  unseen _ _ := rfl
  unheld _ := rfl
  unlogged := rfl
  idle _ := rfl

theorem topics_seasoned (σ ι ρ : Type) : Seasoned xLine 0 rustKey (topics σ ι ρ) where
  finished := terminated_xLine
  older name r held := by
    cases held.symm.trans (holding_getRaw 32 (by decide) (topicAt rustKey 0 "x\n"))
    exact ⟨UInt64.zero_le, List.forall_mem_nil _⟩

variable {σ ι ρ : Type} [DecidableEq σ] [DecidableEq ι] [DecidableEq ρ]

/-- Client `e` appends a line to what a replica holds. -/
def appendLine (c : EditedPool σ ι ρ (List Bytes)) (e : ρ) (name : σ) (line : String) :
    EditedPool σ ι ρ (List Bytes) :=
  match (c.world.fleet.stores name).get rustKey with
  | some prev =>
    { c with
      world := (c.world.read e name rustKey).put name 0 prev
        (.inline (prev.body.bytes ++ textOf [asBytes line])) prev.metadata [asBytes line] }
  | none => c

theorem reaches_appendLine {peers : ι → σ × σ} {edit : Edited.Edit σ ι ρ (List Bytes)}
    {admitted : Edited σ ι ρ (List Bytes) → ι → SyncReq σ → Prop}
    {c : EditedPool σ ι ρ (List Bytes)} {e : ρ} {name : σ} {line : String}
    (allowed : ∀ prev, (c.world.fleet.stores name).get rustKey = some prev →
      edit (c.world.read e name rustKey) prev
        (.inline (prev.body.bytes ++ textOf [asBytes line])) [asBytes line]) :
    Pool.Reaches (Edited.rules peers rustKey edit admitted) c (appendLine c e name line) := by
  unfold appendLine
  split
  next prev got =>
    have noted : (c.world.read e name rustKey).held e = some (name, prev) := by
      simp only [Edited.read, Function.update_self, got, Option.map_some]
    have read : Pool.Step (Edited.rules peers rustKey edit admitted) c
        { c with world := c.world.read e name rustKey } := .ambient _ (.read e name)
    exact (Relation.ReflTransGen.single read).tail
      (.ambient _ (.put e name 0 prev _ prev.metadata _ noted (allowed prev got)))
  · exact .refl

omit [DecidableEq σ] [DecidableEq ι] [DecidableEq ρ] in
/-- An append of a line that is nowhere yet. -/
theorem appends_of_fresh {base : Bytes} {w : Edited σ ι ρ (List Bytes)} {prev : Record}
    {line : String} (fresh : newline ∉ asBytes line ∧ asBytes line ∉ lineTexts base ∧
      ∀ entry ∈ w.log, asBytes line ∉ entry.2) :
    Appends base w prev (.inline (prev.body.bytes ++ textOf [asBytes line])) [asBytes line] :=
  ⟨rfl, List.nodup_singleton _, by simpa using fresh⟩

/-- Serve sync client `i` `n` requests. -/
def serveSync (c : EditedPool σ ι ρ (List Bytes)) (i : ι) (n : Nat) :
    EditedPool σ ι ρ (List Bytes) :=
  match c.clients i with
  | some p =>
    { c with world := (p.steps (Edited.serveAt i 0) n c.world).1 }.setClient i
      (p.steps (Edited.serveAt i 0) n c.world).2
  | none => c

theorem reaches_serveSync {peers : ι → σ × σ} {edit : Edited.Edit σ ι ρ (List Bytes)}
    (c : EditedPool σ ι ρ (List Bytes)) (i : ι) (n : Nat) :
    Pool.Reaches (Edited.rules peers rustKey edit fun _ _ _ => True) c (serveSync c i n) := by
  unfold serveSync
  split
  next p at_p =>
    exact @Pool.reaches_steps _ _ _ _ _ _ (Edited.rules peers rustKey edit fun _ _ _ => True) i
      (Edited.serveAt i 0) (fun w req => ⟨_, Fleet.serveAt_served i 0 w.fleet req, rfl⟩)
      (fun _ _ => trivial) n c p at_p
  · exact .refl

/-- One line was appended to each of two replicas, and their sync has read both and written
its merge to the first. -/
def midSync : EditedPool Bool Unit Unit (List Bytes) :=
  serveSync ((appendLine (appendLine (topics Bool Unit Unit) () false "a") () true "b").setClient ()
    (sync false true)) () 5

/-- A line is appended to the second replica meanwhile, and the sync runs to its end. -/
def racedMerge : EditedPool Bool Unit Unit (List Bytes) :=
  serveSync (appendLine midSync () true "c") () 20

theorem reaches_racedMerge :
    Pool.Reaches (appendRules xLine (fun _ => (false, true)) rustKey) (topics Bool Unit Unit)
      racedMerge := by
  have first : Pool.Reaches (appendRules xLine (fun _ => (false, true)) rustKey)
      (topics Bool Unit Unit) (appendLine (topics Bool Unit Unit) () false "a") :=
    reaches_appendLine fun prev _ => appends_of_fresh (by decide +kernel)
  have second : Pool.Reaches (appendRules xLine (fun _ => (false, true)) rustKey)
      (appendLine (topics Bool Unit Unit) () false "a")
      (appendLine (appendLine (topics Bool Unit Unit) () false "a") () true "b") :=
    reaches_appendLine fun prev _ => appends_of_fresh (by decide +kernel)
  have started := second.tail (.start () (sync false true) ⟨false, rfl⟩)
  have third : Pool.Reaches (appendRules xLine (fun _ => (false, true)) rustKey) midSync
      (appendLine midSync () true "c") :=
    reaches_appendLine fun prev _ => appends_of_fresh (by decide +kernel)
  exact (((first.trans started).trans (reaches_serveSync _ () 5)).trans third).trans
    (reaches_serveSync _ () 20)

/-- Two replicas with one revision are quiescent. -/
theorem quiescent_of_revision {key : RecordKey} {w : σ → MemStore}
    (held : ∀ name, ∃ r, (w name).getRaw key = some r)
    (same : ∀ a b, ((w a).getRaw key).map Record.revision = ((w b).getRaw key).map Record.revision) :
    Quiescent key w := by
  intro a b distinct
  obtain ⟨w', report, ran, reported, -⟩ := exec_sync_at distinct (fun _ => .ok none) false 0 w key
  obtain ⟨recA, atA⟩ := held a
  obtain ⟨recB, atB⟩ := held b
  have revision : recA.revision = recB.revision := by simpa [atA, atB] using same a b
  rw [outcomeAt, atA, atB, outcome, relate_inSync.mpr revision] at reported
  refine ⟨_, _, _, report, by rw [ran], ?_, ?_, ?_, ?_, ?_⟩
  · simp [reported.copiedToA, Outcome.arm]
  · simp [reported.copiedToB, Outcome.arm]
  · simp [reported.fastForwardedToA, Outcome.arm]
  · simp [reported.fastForwardedToB, Outcome.arm]
  · simp [reported.merged, Outcome.arm]

/-- The merge was written to the first replica only; the next pass merged it with the
second, and the line `b` is in both replicas twice. -/
theorem raced_merge_doubles_line :
    Starts xLine rustKey (topics Bool Unit Unit) ∧ Terminated xLine ∧
    Pool.Reaches (appendRules xLine (fun _ => (false, true)) rustKey) (topics Bool Unit Unit)
      racedMerge ∧
    racedMerge.world.log =
      [(true, [asBytes "c"]), (true, [asBytes "b"]), (false, [asBytes "a"])] ∧
    Quiescent rustKey racedMerge.world.fleet.stores ∧
    ∀ name, (racedMerge.world.getRaw name rustKey).map
      (fun r => (lineTexts r.body.bytes).count (asBytes "b")) = some 2 := by
  have held : ∀ name, ((racedMerge.world.fleet.stores name).getRaw rustKey).isSome := by
    decide +kernel
  exact ⟨topics_starts Bool Unit Unit, terminated_xLine, reaches_racedMerge, by decide +kernel,
    quiescent_of_revision (fun name => Option.isSome_iff_exists.mp (held name)) (by decide +kernel),
    by decide +kernel⟩

/-! ## A merge that is not tangled -/

/-- Whether what the sync of the two replicas has read may be merged. -/
def mergesApart (w : Edited Bool Unit Unit (List Bytes)) : SyncReq Bool → Bool
  | .store _ (.putRaw _ _) =>
    match w.fleet.seen () false rustKey, w.fleet.seen () true rustKey with
    | some (some recA), some (some recB) =>
      let ours := lineTexts recA.body.bytes
      let theirs := lineTexts recB.body.bytes
      decide (∀ line ∈ pastShared theirs ours, line ∉ pastShared ours theirs) &&
        decide (max recA.revision.counter recB.revision.counter ≠ maxCounter)
    | _, _ => true
  | _ => true

theorem untangled_of_mergesApart {w : Edited Bool Unit Unit (List Bytes)} {req : SyncReq Bool}
    (checked : mergesApart w req = true) :
    Untangled (fun _ => (false, true)) rustKey w () req := by
  rintro name rec expected recA recB rfl - seenA seenB -
  simpa only [mergesApart, seenA, seenB, Bool.and_eq_true, decide_eq_true_eq] using checked

/-- One line was appended to each of two replicas, and their sync is about to start. -/
def bothAppended : EditedPool Bool Unit Unit (List Bytes) :=
  appendLine (appendLine (topics Bool Unit Unit) () false "a") () true "b"

/-- The sync has run to its end. -/
def bothMerged : EditedPool Bool Unit Unit (List Bytes) :=
  serveSync (bothAppended.setClient () (sync false true)) () 20

theorem reaches_bothMerged :
    Pool.Reaches (untangledRules xLine (fun _ => (false, true)) rustKey) (topics Bool Unit Unit)
      bothMerged := by
  have counted : ∀ {c : EditedPool Bool Unit Unit (List Bytes)} {name : Bool} {line : String},
      (newline ∉ asBytes line ∧ asBytes line ∉ lineTexts xLine ∧
        ∀ entry ∈ c.world.log, asBytes line ∉ entry.2) →
      (((c.world.fleet.stores name).get rustKey).all fun r =>
        r.revision.counter ≠ maxCounter) = true →
      Pool.Reaches (untangledRules xLine (fun _ => (false, true)) rustKey) c
        (appendLine c () name line) := by
    intro c name line fresh room
    refine reaches_appendLine fun prev got => ⟨appends_of_fresh fresh, ?_⟩
    simpa [got] using room
  have first := @counted (topics Bool Unit Unit) false "a" (by decide +kernel) (by decide +kernel)
  have second := @counted (appendLine (topics Bool Unit Unit) () false "a") true "b"
    (by decide +kernel) (by decide +kernel)
  have started := second.tail (.start () (sync false true) ⟨false, rfl⟩)
  have checked : ∀ k < 20, (((sync false true).steps (Edited.serveAt () 0) k
      bothAppended.world).2.nextReq.all (mergesApart ((sync false true).steps
        (Edited.serveAt () 0) k bothAppended.world).1)) = true := by decide +kernel
  have served := @Pool.reaches_steps_admitted _ _ _ _ _ _
    (untangledRules xLine (fun _ => (false, true)) rustKey) () (Edited.serveAt () 0)
    (fun w req => ⟨_, Fleet.serveAt_served () 0 w.fleet req, rfl⟩) 20 _ _
    (Pool.setClient_self bothAppended () (sync false true)) fun k below req at_req => by
      have admitted := checked k below
      rw [Pool.setClient_world] at at_req
      rw [at_req] at admitted
      exact untangled_of_mergesApart admitted
  exact (first.trans started).trans served

/-- Two replicas get a line each and sync: both hold both lines, once. -/
theorem both_lines_once : bothMerged.world.log = [(true, [asBytes "b"]), (false, [asBytes "a"])] ∧
    ∃ r, bothMerged.world.getRaw false rustKey = some r ∧
      (bothMerged.world.getRaw true rustKey).map Record.body = some r.body ∧
      (lineTexts r.body.bytes).count (asBytes "a") = 1 ∧
      (lineTexts r.body.bytes).count (asBytes "b") = 1 := by
  have held : ∀ name, ((bothMerged.world.fleet.stores name).getRaw rustKey).isSome := by
    decide +kernel
  have quiescent : Quiescent rustKey bothMerged.world.fleet.stores :=
    quiescent_of_revision (fun name => Option.isSome_iff_exists.mp (held name)) (by decide +kernel)
  have log : bothMerged.world.log = [(true, [asBytes "b"]), (false, [asBytes "a"])] := by
    decide +kernel
  obtain ⟨r, stored, same, once⟩ := appends_exactly_once (fun _ => Bool.false_ne_true)
    sampleHashHex_injective (topics_starts Bool Unit Unit) (topics_seasoned Bool Unit Unit)
    reaches_bothMerged quiescent false
  rw [log] at once
  exact ⟨log, r, stored, same true, once _ (.tail _ (.head _)) _ (.head _),
    once _ (.head _) _ (.head _)⟩

end Raced

end Gonzalo.Core
