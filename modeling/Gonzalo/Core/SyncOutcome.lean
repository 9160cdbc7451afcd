import Gonzalo.Core.SyncConvergence

/-!
# The report of a quiet sync

`sync_pass` of `gonzalo-core/src/sync.rs` with no other writer, as a function of the two
records at each key. `outcome` is what the pass does there, with the record it writes;
the run lists each key under its outcome's arm and leaves the stores as the outcomes say.
-/

set_option autoImplicit false

namespace Gonzalo.Core
open Gonzalo.Lib

/-- The list of a report that names a key, if any. -/
inductive Arm where
  | nothing | copyToA | copyToB | forwardToA | forwardToB | merged | conflict
  deriving DecidableEq, Repr

/-- What a pass does at one key. -/
inductive Outcome where
  | nothing
  | copyToA (rec : Record)
  | copyToB (rec : Record)
  | forwardToA (rec : Record)
  | forwardToB (rec : Record)
  | merged (rec : Record)
  | conflict (recA recB : Record)

namespace Outcome

def arm : Outcome → Arm
  | nothing => .nothing
  | copyToA _ => .copyToA
  | copyToB _ => .copyToB
  | forwardToA _ => .forwardToA
  | forwardToB _ => .forwardToB
  | merged _ => .merged
  | conflict _ _ => .conflict

/-- The conflict a pass reports. -/
def conflict? (key : RecordKey) : Outcome → Option SyncConflict
  | conflict recA recB => some ⟨key, recA, recB⟩
  | _ => none

/-- The stores after the writes of an outcome. -/
def stores {σ : Type} [DecidableEq σ] (a b : σ) (w : σ → MemStore) : Outcome → σ → MemStore
  | nothing | conflict _ _ => w
  | copyToA rec | forwardToA rec => written w a rec
  | copyToB rec | forwardToB rec => written w b rec
  | merged rec => written (written w a rec) b rec

/-- The record an outcome writes is filed at `key`. -/
def WritesAt (key : RecordKey) : Outcome → Prop
  | nothing | conflict _ _ => True
  | copyToA rec | forwardToA rec | copyToB rec | forwardToB rec | merged rec => rec.key = key

end Outcome

section Outcomes

variable [Blake3] [Serde] (blobs : Blobs) (ancestry : Bool)

/-- A diverged pair. -/
def divergedOutcome (recA recB : Record) : Outcome :=
  match recA.isTombstone, recB.isTombstone with
  | true, true => .merged (tombstoneWinner recA recB (losslessCap recA recB))
  | true, false | false, true => .conflict recA recB
  | false, false =>
    match merge recA.kind.mergeClass (retainedBase blobs ancestry recA recB) recA.body
        recB.body with
    | .merged body => .merged (buildMerged recA recB body)
    | .needsResolution => .conflict recA recB

/-- What a pass does where the stores hold these records. -/
def outcome : Option Record → Option Record → Outcome
  | some recA, some recB =>
    match relate recA recB with
    | .inSync => .nothing
    | .aAhead => .forwardToB recA
    | .bAhead => .forwardToA recB
    | .diverged => divergedOutcome blobs ancestry recA recB
  | some recA, none => .copyToB recA
  | none, some recB => .copyToA recB
  | none, none => .nothing

variable {blobs ancestry}

/-- A diverged pair is merged, if it is no conflict. -/
theorem divergedOutcome_cases (recA recB : Record) :
    divergedOutcome blobs ancestry recA recB = .conflict recA recB ∨
      ∃ rec, divergedOutcome blobs ancestry recA recB = .merged rec ∧
        (rec = tombstoneWinner recA recB (losslessCap recA recB) ∨
          ∃ body, rec = buildMerged recA recB body) := by
  unfold divergedOutcome
  cases recA.isTombstone <;> cases recB.isTombstone
  · simp only
    cases merge recA.kind.mergeClass (retainedBase blobs ancestry recA recB) recA.body
      recB.body with
    | merged body => exact Or.inr ⟨_, rfl, Or.inr ⟨body, rfl⟩⟩
    | needsResolution => exact Or.inl rfl
  · exact Or.inl rfl
  · exact Or.inl rfl
  · exact Or.inr ⟨_, rfl, Or.inl rfl⟩

theorem arm_forwardToB_iff {recA recB : Record} :
    (outcome blobs ancestry (some recA) (some recB)).arm = .forwardToB ↔
      relate recA recB = .aAhead := by
  rw [outcome]
  cases relate recA recB with
  | diverged =>
    rcases @divergedOutcome_cases _ _ blobs ancestry recA recB with
      is | ⟨rec, is, -⟩ <;> simp [is, Outcome.arm]
  | _ => simp [Outcome.arm]

theorem arm_forwardToA_iff {recA recB : Record} :
    (outcome blobs ancestry (some recA) (some recB)).arm = .forwardToA ↔
      relate recA recB = .bAhead := by
  rw [outcome]
  cases relate recA recB with
  | diverged =>
    rcases @divergedOutcome_cases _ _ blobs ancestry recA recB with
      is | ⟨rec, is, -⟩ <;> simp [is, Outcome.arm]
  | _ => simp [Outcome.arm]

/-- The report of a pass over `keys` that had these outcomes. -/
def reportOf (outcomes : RecordKey → Outcome) (keys : List RecordKey) : SyncReport where
  copiedToA := keys.filter fun key => (outcomes key).arm = .copyToA
  copiedToB := keys.filter fun key => (outcomes key).arm = .copyToB
  fastForwardedToA := keys.filter fun key => (outcomes key).arm = .forwardToA
  fastForwardedToB := keys.filter fun key => (outcomes key).arm = .forwardToB
  merged := keys.filter fun key => (outcomes key).arm = .merged
  conflicts := keys.filterMap fun key => (outcomes key).conflict? key

end Outcomes

/-- The keys with an arm. -/
def keysOf (outcomes : RecordKey → Outcome) (keys : List RecordKey) (arm : Arm) : List RecordKey :=
  keys.filter fun key => (outcomes key).arm = arm

theorem conflict_keys_reportOf (outcomes : RecordKey → Outcome) (keys : List RecordKey) :
    (reportOf outcomes keys).conflicts.map SyncConflict.key = keysOf outcomes keys .conflict := by
  have named : ∀ (key : RecordKey) (found : Outcome), (found.conflict? key).map SyncConflict.key =
      Option.guard (fun _ => found.arm = .conflict) key := fun key found => by cases found <;> rfl
  rw [reportOf, keysOf, List.map_filterMap, ← List.filterMap_eq_filter]
  simp only [named]
  rfl

theorem mem_keysOf {outcomes : RecordKey → Outcome} {keys : List RecordKey} {arm : Arm}
    {key : RecordKey} : key ∈ keysOf outcomes keys arm ↔ key ∈ keys ∧ (outcomes key).arm = arm := by
  simp [keysOf]

/-- The report names the key in the list of its arm and in no other. -/
structure ReportedAt (key : RecordKey) (report : SyncReport) (arm : Arm) : Prop where
  copiedToA : key ∈ report.copiedToA ↔ arm = .copyToA
  copiedToB : key ∈ report.copiedToB ↔ arm = .copyToB
  fastForwardedToA : key ∈ report.fastForwardedToA ↔ arm = .forwardToA
  fastForwardedToB : key ∈ report.fastForwardedToB ↔ arm = .forwardToB
  merged : key ∈ report.merged ↔ arm = .merged
  conflicts : key ∈ report.conflicts.map SyncConflict.key ↔ arm = .conflict

theorem reportedAt_reportOf {outcomes : RecordKey → Outcome} {keys : List RecordKey}
    {key : RecordKey} (listed : (outcomes key).arm ≠ .nothing → key ∈ keys) :
    ReportedAt key (reportOf outcomes keys) (outcomes key).arm := by
  have named : ∀ {arm : Arm}, arm ≠ .nothing →
      (key ∈ keysOf outcomes keys arm ↔ (outcomes key).arm = arm) := fun {arm} some => by
    rw [mem_keysOf]
    exact and_iff_right_of_imp fun is => listed (is ▸ some)
  refine ⟨named (by decide), named (by decide), named (by decide), named (by decide),
    named (by decide), ?_⟩
  rw [conflict_keys_reportOf]
  exact named (by decide)

/-! ## One key -/

section Run

variable {σ : Type} [DecidableEq σ] [Blake3] {blobs : Blobs} {ancestry : Bool} {nowMs : Int}

theorem exec_getRaw_bind {α : Type} (w : σ → MemStore) (name : σ) (key : RecordKey)
    (f : Option Record → SyncProgram σ α) :
    (getRaw name key >>= f).exec (serveStores blobs nowMs) w =
      (f ((w name).getRaw key)).exec (serveStores blobs nowMs) w := by
  have same : (serveStores blobs nowMs w (.store name (.getRaw key))).1 = w :=
    Function.update_eq_self name w
  change Program.exec _ (serveStores blobs nowMs w (.store name (.getRaw key))).1 _ = _
  rw [same]
  rfl

theorem exec_listRaw_bind {α : Type} (w : σ → MemStore) (name : σ)
    (f : List RecordKey → SyncProgram σ α) :
    (listRaw name >>= f).exec (serveStores blobs nowMs) w =
      (f ((w name).listRaw .all)).exec (serveStores blobs nowMs) w := by
  have same : (serveStores blobs nowMs w (.store name (.listRaw .all))).1 = w :=
    Function.update_eq_self name w
  change Program.exec _ (serveStores blobs nowMs w (.store name (.listRaw .all))).1 _ = _
  rw [same]
  rfl

/-- A replication write that expects what is stored. -/
theorem exec_putRaw_bind {α : Type} {w : σ → MemStore} {dst : σ} {rec : Record}
    {expected : Option Revision}
    (fresh : expected = ((w dst).getRaw rec.key).map Record.revision)
    (f : Except CoreError PutResult → SyncProgram σ α) :
    (putRaw dst rec expected >>= f).exec (serveStores blobs nowMs) w =
      (f (.ok (.committed rec.revision))).exec (serveStores blobs nowMs) (written w dst rec) := by
  have served : serveStores blobs nowMs w (.store dst (.putRaw rec expected)) =
      (written w dst rec, .ok (.committed rec.revision)) := serveStores_putRaw fresh
  change (f (serveStores blobs nowMs w (.store dst (.putRaw rec expected))).2).exec _
    (serveStores blobs nowMs w (.store dst (.putRaw rec expected))).1 = _
  rw [served]

theorem exec_copy_bind {α : Type} {w : σ → MemStore} {dst : σ} {rec : Record}
    (absent : (w dst).getRaw rec.key = none) (f : Bool → SyncProgram σ α) :
    (copy dst rec >>= f).exec (serveStores blobs nowMs) w =
      (f true).exec (serveStores blobs nowMs) (written w dst rec) := by
  rw [copy, Program.bind_assoc, exec_putRaw_bind (by rw [absent]; rfl)]
  rfl

theorem exec_overwrite_bind {α : Type} {w : σ → MemStore} {dst : σ} {rec current : Record}
    (stored : (w dst).getRaw rec.key = some current) (f : Bool → SyncProgram σ α) :
    (overwrite dst rec current.revision >>= f).exec (serveStores blobs nowMs) w =
      (f true).exec (serveStores blobs nowMs) (written w dst rec) := by
  rw [overwrite, Program.bind_assoc, exec_putRaw_bind (by rw [stored]; rfl)]
  rfl

theorem exec_overwriteBoth_bind {α : Type} {a b : σ} {w : σ → MemStore} {rec recA recB : Record}
    (distinct : a ≠ b) (atA : (w a).getRaw rec.key = some recA)
    (atB : (w b).getRaw rec.key = some recB) (f : Bool → SyncProgram σ α) :
    (overwriteBoth a b rec recA.revision recB.revision >>= f).exec (serveStores blobs nowMs) w =
      (f true).exec (serveStores blobs nowMs) (written (written w a rec) b rec) := by
  have still : (written w a rec b).getRaw rec.key = some recB := by
    rw [written_of_ne (Ne.symm distinct)]
    exact atB
  rw [overwriteBoth, Program.bind_assoc, exec_overwrite_bind atA, Program.bind_assoc,
    exec_overwrite_bind still]
  rfl

theorem exec_ancestryBase_bind {α : Type} (w : σ → MemStore) (recA recB : Record)
    (f : Body → SyncProgram σ α) :
    (ancestryBase ancestry recA recB >>= f).exec (serveStores blobs nowMs) w =
      (f (retainedBase blobs ancestry recA recB)).exec (serveStores blobs nowMs) w := by
  cases ancestry with
  | false => rfl
  | true =>
    unfold ancestryBase retainedBase
    cases recA.parent with
    | none => rfl
    | some pa =>
      cases recB.parent with
      | none => rfl
      | some pb =>
        by_cases shared : pa = pb
        · have asked : ∀ g : Except CoreError (Option Bytes) → SyncProgram σ Body,
              (getBlob pa.hash >>= g >>= f).exec (serveStores blobs nowMs) w =
                (g (blobs pa.hash) >>= f).exec (serveStores blobs nowMs) w := fun _ => rfl
          simp only [if_pos shared]
          rw [asked]
          rcases blobs pa.hash with e | (_ | bytes) <;> rfl
        · simp only [if_neg shared]
          rfl

variable [Serde]

theorem divergedOutcome_writesAt {key : RecordKey} {recA recB : Record} (ownA : recA.key = key)
    (ownB : recB.key = key) : (divergedOutcome blobs ancestry recA recB).WritesAt key := by
  unfold divergedOutcome
  cases recA.isTombstone <;> cases recB.isTombstone
  · simp only
    cases merge recA.kind.mergeClass (retainedBase blobs ancestry recA recB) recA.body
      recB.body with
    | merged body => exact ownA
    | needsResolution => trivial
  · trivial
  · trivial
  · exact (tombstoneWinner_key _ (ownB.trans ownA.symm)).trans ownA

theorem outcome_writesAt {key : RecordKey} {ra rb : Option Record}
    (ownA : ∀ r, ra = some r → r.key = key) (ownB : ∀ r, rb = some r → r.key = key) :
    (outcome blobs ancestry ra rb).WritesAt key := by
  match ra, rb with
  | none, none => trivial
  | some rec, none => exact ownA rec rfl
  | none, some rec => exact ownB rec rfl
  | some recA, some recB =>
    have keyA := ownA recA rfl
    have keyB := ownB recB rfl
    simp only [outcome]
    cases relate recA recB with
    | inSync => trivial
    | aAhead => exact keyA
    | bAhead => exact keyB
    | diverged => exact divergedOutcome_writesAt keyA keyB

/-- The outcome of a pass at a key of these stores. -/
def outcomeAt (blobs : Blobs) (ancestry : Bool) (a b : σ) (w : σ → MemStore) (key : RecordKey) :
    Outcome := outcome blobs ancestry ((w a).getRaw key) ((w b).getRaw key)

omit [DecidableEq σ] in
theorem outcomeAt_writesAt (a b : σ) (w : σ → MemStore) (key : RecordKey) :
    (outcomeAt blobs ancestry a b w key).WritesAt key :=
  outcome_writesAt (fun _ => MemStore.key_of_getRaw) fun _ => MemStore.key_of_getRaw

/-- The stores hold the same record at the key, under the same caps. -/
def Alike (key : RecordKey) (w w' : σ → MemStore) : Prop :=
  ∀ name, (w name).getRaw key = (w' name).getRaw key ∧ (w name).cap = (w' name).cap

omit [DecidableEq σ] [Blake3] [Serde] in
theorem Alike.trans {key : RecordKey} {w w' w'' : σ → MemStore} (first : Alike key w w')
    (second : Alike key w' w'') : Alike key w w'' := fun name =>
  ⟨(first name).1.trans (second name).1, (first name).2.trans (second name).2⟩

omit [Blake3] [Serde] in
theorem written_cap (w : σ → MemStore) (dst : σ) (rec : Record) (name : σ) :
    (written w dst rec name).cap = (w name).cap := by
  unfold written
  by_cases same : name = dst
  · subst same
    rw [Function.update_self, MemStore.cap_insert]
  · rw [Function.update_of_ne same]

omit [Blake3] [Serde] in
theorem written_getRaw (w : σ → MemStore) (dst : σ) (rec : Record) (name : σ) :
    (written w dst rec name).getRaw rec.key =
      if name = dst then some (rawRecord ((w dst).getRaw rec.key) rec (w dst).cap)
      else (w name).getRaw rec.key := by
  by_cases same : name = dst
  · subst same
    rw [if_pos rfl, written, Function.update_self, MemStore.getRaw_insert]
    exact if_pos rfl
  · rw [if_neg same, written_of_ne same]

omit [Blake3] [Serde] in
theorem Alike.written {key : RecordKey} {w w' : σ → MemStore} (alike : Alike key w w') (dst : σ)
    {rec : Record} (own : rec.key = key) : Alike key (written w dst rec) (written w' dst rec) := by
  subst own
  intro name
  rw [written_getRaw, written_getRaw, written_cap, written_cap, (alike dst).1, (alike dst).2,
    (alike name).1]
  exact ⟨rfl, (alike name).2⟩

omit [Blake3] [Serde] in
/-- What an outcome writes depends on that key of the stores only. -/
theorem Outcome.stores_alike {a b : σ} {w w' : σ → MemStore} {key : RecordKey} {found : Outcome}
    (own : found.WritesAt key) (alike : Alike key w w') :
    Alike key (found.stores a b w) (found.stores a b w') := by
  cases found with
  | nothing | conflict recA recB => exact alike
  | copyToA rec | copyToB rec | forwardToA rec | forwardToB rec => exact alike.written _ own
  | merged rec => exact (alike.written a own).written b own

omit [Blake3] [Serde] in
/-- The writes at one key leave the others. -/
theorem Outcome.stores_ne {a b : σ} {w : σ → MemStore} {key k : RecordKey} {found : Outcome}
    (own : found.WritesAt key) (other : key ≠ k) : Alike k (found.stores a b w) w := by
  have frame : ∀ (w : σ → MemStore) (dst : σ) {rec : Record}, rec.key = key →
      Alike k (Core.written w dst rec) w := fun w dst rec at_ name =>
    ⟨written_getRaw_ne (at_ ▸ other), written_cap w dst rec name⟩
  cases found with
  | nothing | conflict recA recB => exact fun _ => ⟨rfl, rfl⟩
  | copyToA rec | copyToB rec | forwardToA rec | forwardToB rec => exact frame w _ own
  | merged rec =>
    exact (frame _ b own).trans (frame w a own)

/-- The report of a pass with one more key. -/
def PassState.noted (s : PassState) (key : RecordKey) (found : Outcome) : PassState :=
  match found with
  | .nothing => s
  | .copyToA _ => s.settle key true fun r => { r with copiedToA := r.copiedToA ++ [key] }
  | .copyToB _ => s.settle key true fun r => { r with copiedToB := r.copiedToB ++ [key] }
  | .forwardToA _ =>
    s.settle key true fun r => { r with fastForwardedToA := r.fastForwardedToA ++ [key] }
  | .forwardToB _ =>
    s.settle key true fun r => { r with fastForwardedToB := r.fastForwardedToB ++ [key] }
  | .merged _ => s.settle key true fun r => { r with merged := r.merged ++ [key] }
  | .conflict recA recB => s.conflict key recA recB

theorem exec_reconcileDiverged {a b : σ} {w : σ → MemStore} {key : RecordKey} {s : PassState}
    {recA recB : Record} (distinct : a ≠ b) (atA : (w a).getRaw key = some recA)
    (atB : (w b).getRaw key = some recB) :
    (reconcileDiverged a b ancestry key recA recB s).exec (serveStores blobs nowMs) w =
      ((divergedOutcome blobs ancestry recA recB).stores a b w,
        .ok (s.noted key (divergedOutcome blobs ancestry recA recB))) := by
  have ownA := MemStore.key_of_getRaw atA
  have ownB := MemStore.key_of_getRaw atB
  unfold reconcileDiverged divergedOutcome
  cases deadA : recA.isTombstone with
  | true =>
    cases deadB : recB.isTombstone with
    | true =>
      have own : (tombstoneWinner recA recB (losslessCap recA recB)).key = key :=
        (tombstoneWinner_key _ (ownB.trans ownA.symm)).trans ownA
      simp only
      rw [exec_overwriteBoth_bind distinct (own ▸ atA) (own ▸ atB)]
      rfl
    | false => rfl
  | false =>
    cases deadB : recB.isTombstone with
    | true => rfl
    | false =>
      simp only
      rw [exec_ancestryBase_bind]
      cases merge recA.kind.mergeClass (retainedBase blobs ancestry recA recB) recA.body
          recB.body with
      | needsResolution => rfl
      | merged body =>
        have own : (buildMerged recA recB body).key = key := ownA
        simp only
        rw [exec_overwriteBoth_bind distinct (own ▸ atA) (own ▸ atB)]
        rfl

theorem exec_syncKey {a b : σ} (distinct : a ≠ b) (w : σ → MemStore) (key : RecordKey)
    (s : PassState) :
    (syncKey a b ancestry s key).exec (serveStores blobs nowMs) w =
      ((outcomeAt blobs ancestry a b w key).stores a b w,
        .ok (s.noted key (outcomeAt blobs ancestry a b w key))) := by
  unfold syncKey outcomeAt
  rw [exec_getRaw_bind, exec_getRaw_bind]
  match atA : (w a).getRaw key, atB : (w b).getRaw key with
  | none, none => rfl
  | some rec, none =>
    have own := MemStore.key_of_getRaw atA
    simp only
    rw [exec_copy_bind (own ▸ atB)]
    rfl
  | none, some rec =>
    have own := MemStore.key_of_getRaw atB
    simp only
    rw [exec_copy_bind (own ▸ atA)]
    rfl
  | some recA, some recB =>
    have ownA := MemStore.key_of_getRaw atA
    have ownB := MemStore.key_of_getRaw atB
    simp only [outcome]
    cases relate recA recB with
    | inSync => rfl
    | aAhead =>
      simp only
      rw [exec_overwrite_bind (ownA ▸ atB)]
      rfl
    | bAhead =>
      simp only
      rw [exec_overwrite_bind (ownB ▸ atA)]
      rfl
    | diverged => exact exec_reconcileDiverged distinct atA atB

omit [DecidableEq σ] in
theorem outcomeAt_congr {a b : σ} {w w' : σ → MemStore} {key : RecordKey}
    (alike : Alike key w w') :
    outcomeAt blobs ancestry a b w key = outcomeAt blobs ancestry a b w' key := by
  rw [outcomeAt, outcomeAt, (alike a).1, (alike b).1]

/-! ## All keys -/

omit [DecidableEq σ] [Blake3] [Serde] in
theorem noted_reportOf {outcomes : RecordKey → Outcome} {before : List RecordKey} {s : PassState}
    (so_far : s = ⟨reportOf outcomes before, []⟩) (key : RecordKey) :
    s.noted key (outcomes key) = ⟨reportOf outcomes (before ++ [key]), []⟩ := by
  subst so_far
  cases found : outcomes key <;>
    simp [PassState.noted, PassState.settle, PassState.conflict, reportOf, List.filter_append,
      List.filterMap_append, found, Outcome.arm, Outcome.conflict?]

/-- The loop of a pass, started where `before` is done. -/
theorem exec_syncKeys {a b : σ} (distinct : a ≠ b) {w₀ : σ → MemStore}
    {before rest : List RecordKey} (once : rest.Nodup) {w : σ → MemStore}
    (ahead : ∀ key ∈ rest, Alike key w w₀) :
    ∃ w', (rest.foldlM (syncKey a b ancestry)
          (⟨reportOf (outcomeAt blobs ancestry a b w₀) before, []⟩ : PassState)).exec
          (serveStores blobs nowMs) w =
        (w', .ok ⟨reportOf (outcomeAt blobs ancestry a b w₀) (before ++ rest), []⟩) ∧
      (∀ key ∉ rest, Alike key w' w) ∧
      ∀ key ∈ rest, Alike key w' ((outcomeAt blobs ancestry a b w₀ key).stores a b w₀) := by
  induction rest generalizing before w with
  | nil => exact ⟨w, by rw [List.append_nil]; rfl, fun _ _ _ => ⟨rfl, rfl⟩, by simp⟩
  | cons key rest ih =>
    obtain ⟨fresh, once⟩ := List.nodup_cons.mp once
    have here := ahead key List.mem_cons_self
    have own : (outcomeAt blobs ancestry a b w₀ key).WritesAt key := outcomeAt_writesAt a b w₀ key
    have still : ∀ k ∈ rest,
        Alike k ((outcomeAt blobs ancestry a b w₀ key).stores a b w) w₀ := fun k member =>
      (Outcome.stores_ne own fun same => fresh (same ▸ member)).trans
        (ahead k (List.mem_cons_of_mem _ member))
    obtain ⟨w', ran, frame, done⟩ := @ih (before ++ [key]) once _ still
    refine ⟨w', ?_, fun k absent => ?_, fun k member => ?_⟩
    · rw [List.foldlM_cons]
      refine (Program.exec_bind _ _).trans ?_
      rw [exec_syncKey distinct, outcomeAt_congr here]
      simpa [noted_reportOf rfl] using ran
    · exact (frame k fun member => absent (List.mem_cons_of_mem _ member)).trans
        (Outcome.stores_ne own fun same => absent (same ▸ List.mem_cons_self))
    · rcases List.mem_cons.mp member with rfl | later
      · exact (frame k fresh).trans (Outcome.stores_alike own here)
      · exact done k later

/-- A quiet sync of any two stores: it lists every key under the arm of its outcome, and
leaves each key as that outcome does. -/
theorem exec_syncWithAncestry {a b : σ} (distinct : a ≠ b) (blobs : Blobs) (ancestry : Bool)
    (nowMs : Int) (w : σ → MemStore) :
    ∃ w', (syncWithAncestry a b ancestry).exec (serveStores blobs nowMs) w =
        (w', .ok (reportOf (outcomeAt blobs ancestry a b w)
          (ascending ((w a).listRaw .all ++ (w b).listRaw .all)))) ∧
      ∀ key, Alike key w' ((outcomeAt blobs ancestry a b w key).stores a b w) := by
  obtain ⟨w', ran, frame, done⟩ := @exec_syncKeys σ _ _ blobs ancestry nowMs _ a b distinct w [] _
    (nodup_ascending ((w a).listRaw .all ++ (w b).listRaw .all)) w fun _ _ _ => ⟨rfl, rfl⟩
  have pass : (syncPass a b ancestry).exec (serveStores blobs nowMs) w = (w', .ok
      ⟨reportOf (outcomeAt blobs ancestry a b w)
        (ascending ((w a).listRaw .all ++ (w b).listRaw .all)), []⟩) := by
    rw [syncPass, exec_listRaw_bind, exec_listRaw_bind]
    exact ran
  refine ⟨w', ?_, fun key => ?_⟩
  · refine (Program.exec_bind _ _).trans ?_
    rw [pass]
    rfl
  · by_cases listed : key ∈ ascending ((w a).listRaw .all ++ (w b).listRaw .all)
    · exact done key listed
    · have absent : ∀ name, name = a ∨ name = b → (w name).getRaw key = none := by
        intro name side
        by_contra present
        obtain ⟨r, stored⟩ := Option.ne_none_iff_exists'.mp present
        refine listed (mem_ascending.mpr (List.mem_append.mpr ?_))
        rcases side with rfl | rfl
        · exact Or.inl (MemStore.mem_listRaw.mpr ⟨⟨r, stored⟩, rfl⟩)
        · exact Or.inr (MemStore.mem_listRaw.mpr ⟨⟨r, stored⟩, rfl⟩)
      rw [outcomeAt, absent a (Or.inl rfl), absent b (Or.inr rfl)]
      exact frame key listed

/-- A quiet sync, at one key. -/
theorem exec_sync_at {a b : σ} (distinct : a ≠ b) (blobs : Blobs) (ancestry : Bool) (nowMs : Int)
    (w : σ → MemStore) (key : RecordKey) :
    ∃ w' report, (syncWithAncestry a b ancestry).exec (serveStores blobs nowMs) w =
        (w', .ok report) ∧
      ReportedAt key report (outcomeAt blobs ancestry a b w key).arm ∧
      Alike key w' ((outcomeAt blobs ancestry a b w key).stores a b w) := by
  obtain ⟨w', ran, done⟩ := exec_syncWithAncestry distinct blobs ancestry nowMs w
  refine ⟨w', _, ran, reportedAt_reportOf fun some => ?_, done key⟩
  rw [mem_ascending, List.mem_append, MemStore.mem_listRaw, MemStore.mem_listRaw]
  by_contra unlisted
  rw [not_or] at unlisted
  have absent : (w a).getRaw key = none ∧ (w b).getRaw key = none := by
    simpa [← Option.eq_none_iff_forall_ne_some] using unlisted
  rw [outcomeAt, absent.1, absent.2] at some
  exact some rfl

end Run

end Gonzalo.Core
