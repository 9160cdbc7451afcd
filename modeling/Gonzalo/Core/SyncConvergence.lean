import Gonzalo.Core.Sync

/-!
# A sync of two quiet stores

With no other writer a sync is a function of the two stores and of what the
ancestry store retains. One pass settles every key: `clash` is what the pass reports
there, and where it reports nothing both stores end with one revision. The next
sync finds every key in agreement or in the same clash, and writes nothing.
-/

set_option autoImplicit false

namespace Gonzalo.Core
open Gonzalo.Lib

variable {σ : Type}

/-! ## The stores alone -/

/-- What the ancestry store answers for each hash. -/
abbrev Blobs : Type := ContentHash → Except CoreError (Option Bytes)

/-- The stores answer at time `nowMs` and nobody else writes. -/
def serveStores [DecidableEq σ] [Blake3] (blobs : Blobs) (nowMs : Int) (w : σ → MemStore) :
    (req : SyncReq σ) → (σ → MemStore) × req.Ans
  | .store name req =>
    (Function.update w name ((w name).serve nowMs req).1, ((w name).serve nowMs req).2)
  | .getBlob hash => (w, blobs hash)

/-- Whether a request is one of the calls that can change a store. -/
def SyncReq.isWrite : SyncReq σ → Bool
  | .store _ (.put _ _) | .store _ (.putRaw _ _) => true
  | .store _ (.deleteAs _ _ _) | .store _ (.purge _ _) => true
  | _ => false

/-- A sync may read, and issue replication writes at the keys of `writable`. -/
def mayWrite (writable : RecordKey → Prop) : SyncReq σ → Prop
  | .store _ (.putRaw rec _) => writable rec.key
  | req => req.isWrite = false

/-- The body `ancestry_base` finds. -/
def retainedBase (blobs : Blobs) (ancestry : Bool) (recA recB : Record) : Body :=
  match ancestry, recA.parent, recB.parent with
  | true, some pa, some pb =>
    if pa = pb then
      match blobs pa.hash with
      | .ok (some bytes) => .inline bytes
      | _ => .inline []
    else .inline []
  | _, _, _ => .inline []

/-- The conflict a pass reports at a key where the stores hold `ra` and `rb`. -/
def clash [Serde] (blobs : Blobs) (ancestry : Bool) (key : RecordKey) :
    Option Record → Option Record → Option SyncConflict
  | some recA, some recB =>
    if relate recA recB = .diverged then
      match recA.isTombstone, recB.isTombstone with
      | true, true => none
      | true, false | false, true => some ⟨key, recA, recB⟩
      | false, false =>
        match merge recA.kind.mergeClass (retainedBase blobs ancestry recA recB) recA.body
            recB.body with
        | .merged _ => none
        | .needsResolution => some ⟨key, recA, recB⟩
    else none
  | _, _ => none

/-- The two stores hold the same revision at the key, or nothing. -/
def Agree (w : σ → MemStore) (a b : σ) (key : RecordKey) : Prop :=
  ((w a).getRaw key).map Record.revision = ((w b).getRaw key).map Record.revision

section Settle

variable [DecidableEq σ] {blobs : Blobs} {nowMs : Int} {writable : RecordKey → Prop}

/-- The stores after `rec` is written over what `dst` holds. -/
def written (w : σ → MemStore) (dst : σ) (rec : Record) : σ → MemStore :=
  Function.update w dst
    ((w dst).insert (rawRecord ((w dst).getRaw rec.key) rec (w dst).cap))

theorem written_getRaw_ne {w : σ → MemStore} {dst : σ} {rec : Record} {name : σ} {key : RecordKey}
    (other : rec.key ≠ key) : (written w dst rec name).getRaw key = (w name).getRaw key := by
  unfold written
  by_cases same : name = dst
  · subst same
    rw [Function.update_self, MemStore.getRaw_insert]
    exact if_neg other
  · rw [Function.update_of_ne same]

theorem written_getRaw_self {w : σ → MemStore} {dst : σ} {rec : Record} :
    ((written w dst rec dst).getRaw rec.key).map Record.revision = some rec.revision := by
  unfold written
  rw [Function.update_self, MemStore.getRaw_insert]
  simp [rawRecord]

theorem written_of_ne {w : σ → MemStore} {dst name : σ} {rec : Record} (other : name ≠ dst) :
    written w dst rec name = w name := Function.update_of_ne other _ w

variable [Blake3]

/-- The contract of a sync alone with its stores. -/
abbrev quietContract (blobs : Blobs) (nowMs : Int) (writable : RecordKey → Prop) :
    Contract (syncInterface σ) (σ → MemStore) :=
  .ofServer (serveStores blobs nowMs) (mayWrite writable)

theorem quiet_getRaw {post : (σ → MemStore) → Except CoreError (Option Record) → Prop}
    {w : σ → MemStore} {name : σ} {key : RecordKey}
    (then_ : post w (.ok ((w name).getRaw key))) :
    Wp (quietContract blobs nowMs writable) post w (getRaw name key) := by
  refine Wp.server_ask_iff.mpr ⟨rfl, ?_⟩
  have same : (serveStores blobs nowMs w (.store name (.getRaw key))).1 = w :=
    Function.update_eq_self name w
  rw [same]
  exact then_

theorem quiet_listRaw {post : (σ → MemStore) → Except CoreError (List RecordKey) → Prop}
    {w : σ → MemStore} {name : σ} (then_ : post w (.ok ((w name).listRaw .all))) :
    Wp (quietContract blobs nowMs writable) post w (listRaw name) := by
  refine Wp.server_ask_iff.mpr ⟨rfl, ?_⟩
  have same : (serveStores blobs nowMs w (.store name (.listRaw .all))).1 = w :=
    Function.update_eq_self name w
  rw [same]
  exact then_

theorem serveStores_putRaw {w : σ → MemStore} {dst : σ} {rec : Record}
    {expected : Option Revision}
    (fresh : expected = ((w dst).getRaw rec.key).map Record.revision) :
    serveStores blobs nowMs w (.store dst (.putRaw rec expected)) =
      (written w dst rec, .ok (.committed rec.revision)) := by
  subst fresh
  simp only [serveStores, MemStore.serve, MemStore.putRaw_of_fresh]
  rfl

theorem quiet_copy {post : (σ → MemStore) → Except CoreError Bool → Prop} {w : σ → MemStore}
    {dst : σ} {rec : Record} (absent : (w dst).getRaw rec.key = none) (free : writable rec.key)
    (then_ : post (written w dst rec) (.ok true)) :
    Wp (quietContract blobs nowMs writable) post w (copy dst rec) := by
  refine Wp.server_ask_iff.mpr ⟨free, ?_⟩
  rw [serveStores_putRaw (by rw [absent]; rfl)]
  exact then_

theorem quiet_overwrite {post : (σ → MemStore) → Except CoreError Bool → Prop} {w : σ → MemStore}
    {dst : σ} {rec current : Record} (stored : (w dst).getRaw rec.key = some current)
    (free : writable rec.key) (then_ : post (written w dst rec) (.ok true)) :
    Wp (quietContract blobs nowMs writable) post w (overwrite dst rec current.revision) := by
  refine Wp.server_ask_iff.mpr ⟨free, ?_⟩
  rw [serveStores_putRaw (by rw [stored]; rfl)]
  exact then_

theorem quiet_ancestryBase {post : (σ → MemStore) → Except CoreError Body → Prop}
    {w : σ → MemStore} {ancestry : Bool} {recA recB : Record}
    (then_ : post w (.ok (retainedBase blobs ancestry recA recB))) :
    Wp (quietContract blobs nowMs writable) post w (ancestryBase ancestry recA recB) := by
  cases ancestry with
  | false => exact then_
  | true =>
    unfold retainedBase at then_
    unfold ancestryBase
    cases parentA : recA.parent with
    | none =>
      simp only [parentA] at then_ ⊢
      exact then_
    | some pa =>
      cases parentB : recB.parent with
      | none =>
        simp only [parentA, parentB] at then_ ⊢
        exact then_
      | some pb =>
        simp only [parentA, parentB] at then_ ⊢
        by_cases shared : pa = pb
        · rw [if_pos shared] at then_ ⊢
          refine Wp.server_ask_iff.mpr ⟨rfl, ?_⟩
          change post w (.ok (match blobs pa.hash with
            | .ok (some bytes) => .inline bytes
            | _ => .inline [])) at then_
          change Wp _ post w (match blobs pa.hash with
            | .ok (some bytes) => pure (.inline bytes)
            | _ => pure (.inline []))
          revert then_
          rcases blobs pa.hash with e | (_ | bytes) <;> exact fun held => held
        · rw [if_neg shared] at then_ ⊢
          exact then_

variable [Serde]

/-- What a sync alone does at one key, from `w` to `w'`: the other keys stay, a
clash changes nothing, and otherwise the stores end in agreement, unchanged if they
agreed before. -/
structure Settles (blobs : Blobs) (ancestry : Bool) (a b : σ) (key : RecordKey)
    (w w' : σ → MemStore) : Prop where
  frame : ∀ k, k ≠ key → ∀ name, (w' name).getRaw k = (w name).getRaw k
  clashed : clash blobs ancestry key ((w a).getRaw key) ((w b).getRaw key) ≠ none → w' = w
  settled : clash blobs ancestry key ((w a).getRaw key) ((w b).getRaw key) = none → Agree w' a b key
  kept : Agree w a b key → w' = w

/-- The report of a pass after a key at which `found` clashed. -/
structure Reports (s s' : PassState) (found : Option SyncConflict) : Prop where
  raced : s'.raced = s.raced
  unconverged : s'.report.unconverged = s.report.unconverged
  conflicts : s'.report.conflicts = s.report.conflicts ++ found.toList

/-- The postcondition of one key. -/
def KeyDone (blobs : Blobs) (ancestry : Bool) (a b : σ) (key : RecordKey) (s : PassState)
    (w w' : σ → MemStore) (result : Except CoreError PassState) : Prop :=
  Settles blobs ancestry a b key w w' ∧ ∃ s', result = .ok s' ∧
    Reports s s' (clash blobs ancestry key ((w a).getRaw key) ((w b).getRaw key))

omit [DecidableEq σ] [Blake3] in
/-- The write arms: where the stores differed and nothing clashed, the writes made
them agree and touched this key alone. -/
theorem keyDone_of_writes {a b : σ} {ancestry : Bool} {s : PassState} {key : RecordKey}
    {w w' : σ → MemStore} {note : SyncReport → SyncReport}
    (frame : ∀ k, k ≠ key → ∀ name, (w' name).getRaw k = (w name).getRaw k)
    (quiet : clash blobs ancestry key ((w a).getRaw key) ((w b).getRaw key) = none)
    (differ : ¬ Agree w a b key) (agree : Agree w' a b key)
    (noted : ∀ r, (note r).conflicts = r.conflicts ∧ (note r).unconverged = r.unconverged) :
    KeyDone blobs ancestry a b key s w w' (.ok (s.settle key true note)) := by
  refine ⟨⟨frame, fun clashed => absurd quiet clashed, fun _ => agree,
    fun already => absurd already differ⟩, _, rfl, ⟨rfl, (noted _).2, ?_⟩⟩
  rw [quiet, Option.toList_none, List.append_nil]
  exact (noted _).1

omit [DecidableEq σ] [Blake3] in
/-- The arms that only look. -/
theorem keyDone_of_agree {a b : σ} {ancestry : Bool} {s : PassState} {key : RecordKey}
    {w : σ → MemStore} (agree : Agree w a b key)
    (quiet : clash blobs ancestry key ((w a).getRaw key) ((w b).getRaw key) = none) :
    KeyDone blobs ancestry a b key s w w (.ok s) := by
  refine ⟨⟨fun _ _ _ => rfl, fun _ => rfl, fun _ => agree, fun _ => rfl⟩, s, rfl, ⟨rfl, rfl, ?_⟩⟩
  rw [quiet, Option.toList_none, List.append_nil]

omit [DecidableEq σ] [Blake3] in
/-- The arms that report. -/
theorem keyDone_of_clash {a b : σ} {ancestry : Bool} {s : PassState} {key : RecordKey}
    {w : σ → MemStore} {recA recB : Record}
    (clashed : clash blobs ancestry key ((w a).getRaw key) ((w b).getRaw key) =
      some ⟨key, recA, recB⟩) :
    KeyDone blobs ancestry a b key s w w (.ok (s.conflict key recA recB)) := by
  refine ⟨⟨fun _ _ _ => rfl, fun _ => rfl, fun quiet => ?_, fun _ => rfl⟩, _, rfl,
    ⟨rfl, rfl, ?_⟩⟩
  · rw [clashed] at quiet
    cases quiet
  · rw [clashed]
    rfl

/-- Both stores get the reconciliation of the pair they held. -/
theorem quiet_overwriteBoth {a b : σ} {ancestry : Bool} {s : PassState} {key : RecordKey}
    {w : σ → MemStore} {recA recB rec : Record} {note : SyncReport → SyncReport}
    (distinct : a ≠ b) (storedA : (w a).getRaw key = some recA)
    (storedB : (w b).getRaw key = some recB) (own : rec.key = key)
    (differ : recA.revision ≠ recB.revision) (free : writable key)
    (quiet : clash blobs ancestry key ((w a).getRaw key) ((w b).getRaw key) = none)
    (noted : ∀ r, (note r).conflicts = r.conflicts ∧ (note r).unconverged = r.unconverged) :
    Wp (quietContract blobs nowMs writable) (KeyDone blobs ancestry a b key s w) w
      (overwriteBoth a b rec recA.revision recB.revision >>= fun landed =>
        Program.done (s.settle key landed note)) := by
  subst own
  refine Wp.bind_iff.mpr (Wp.bind_iff.mpr (quiet_overwrite storedA free ?_))
  have still : (written w a rec b).getRaw rec.key = some recB := by
    rw [written_of_ne (Ne.symm distinct)]
    exact storedB
  refine Wp.bind_iff.mpr (quiet_overwrite still free ?_)
  refine keyDone_of_writes (fun k other name => ?_) quiet ?_ ?_ noted
  · rw [written_getRaw_ne (Ne.symm other), written_getRaw_ne (Ne.symm other)]
  · unfold Agree
    rw [storedA, storedB]
    simpa using differ
  · unfold Agree
    rw [written_of_ne distinct, written_getRaw_self, written_getRaw_self]

omit [Blake3] [Serde] in
/-- One write brings the store that lacks `rec`, or holds an older record, up to it. -/
theorem agree_written {a b dst : σ} {w : σ → MemStore} {rec : Record}
    (distinct : a ≠ b) (side : dst = a ∧ (w b).getRaw rec.key = some rec ∨
      dst = b ∧ (w a).getRaw rec.key = some rec) : Agree (written w dst rec) a b rec.key := by
  unfold Agree
  rcases side with ⟨rfl, stored⟩ | ⟨rfl, stored⟩
  · rw [written_getRaw_self, written_of_ne (Ne.symm distinct), stored]
    rfl
  · rw [written_getRaw_self, written_of_ne distinct, stored]
    rfl

theorem quiet_reconcileDiverged {a b : σ} {ancestry : Bool} {s : PassState} {key : RecordKey}
    {w : σ → MemStore} {recA recB : Record} (distinct : a ≠ b)
    (atA : (w a).getRaw key = some recA) (atB : (w b).getRaw key = some recB)
    (diverged : relate recA recB = .diverged)
    (free : ¬ Agree w a b key →
      clash blobs ancestry key ((w a).getRaw key) ((w b).getRaw key) = none → writable key) :
    Wp (quietContract blobs nowMs writable) (KeyDone blobs ancestry a b key s w) w
      (reconcileDiverged a b ancestry key recA recB s) := by
  have ownA := MemStore.key_of_getRaw atA
  have ownB := MemStore.key_of_getRaw atB
  have apart : recA.revision ≠ recB.revision := fun same => by
    simp [relate_inSync.mpr same] at diverged
  have differ : ¬ Agree w a b key := by simpa [Agree, atA, atB] using apart
  cases deadA : recA.isTombstone with
  | true =>
    cases deadB : recB.isTombstone with
    | true =>
      have calm : clash blobs ancestry key ((w a).getRaw key) ((w b).getRaw key) = none := by
        rw [atA, atB]
        simp [clash, diverged, deadA, deadB]
      simp only [reconcileDiverged, deadA, deadB]
      exact quiet_overwriteBoth distinct atA atB
        ((tombstoneWinner_key _ (ownB.trans ownA.symm)).trans ownA) apart (free differ calm) calm
        fun _ => ⟨rfl, rfl⟩
    | false =>
      simp only [reconcileDiverged, deadA, deadB]
      refine keyDone_of_clash ?_
      rw [atA, atB]
      simp [clash, diverged, deadA, deadB]
  | false =>
    cases deadB : recB.isTombstone with
    | true =>
      simp only [reconcileDiverged, deadA, deadB]
      refine keyDone_of_clash ?_
      rw [atA, atB]
      simp [clash, diverged, deadA, deadB]
    | false =>
      simp only [reconcileDiverged, deadA, deadB]
      refine Wp.bind_iff.mpr (quiet_ancestryBase ?_)
      simp only [seqPost]
      cases merging : merge recA.kind.mergeClass (retainedBase blobs ancestry recA recB)
          recA.body recB.body with
      | merged body =>
        have calm : clash blobs ancestry key ((w a).getRaw key) ((w b).getRaw key) = none := by
          rw [atA, atB]
          simp [clash, diverged, deadA, deadB, merging]
        exact quiet_overwriteBoth distinct atA atB ownA apart (free differ calm) calm
          fun _ => ⟨rfl, rfl⟩
      | needsResolution =>
        refine keyDone_of_clash ?_
        rw [atA, atB]
        simp [clash, diverged, deadA, deadB, merging]

theorem quiet_syncKey {a b : σ} {ancestry : Bool} {s : PassState} {key : RecordKey}
    {w : σ → MemStore} (distinct : a ≠ b)
    (free : ¬ Agree w a b key →
      clash blobs ancestry key ((w a).getRaw key) ((w b).getRaw key) = none → writable key) :
    Wp (quietContract blobs nowMs writable) (KeyDone blobs ancestry a b key s w) w
      (syncKey a b ancestry s key) := by
  refine Wp.bind_iff.mpr (quiet_getRaw (Wp.bind_iff.mpr (quiet_getRaw ?_)))
  have frame : ∀ {dst : σ} {rec : Record}, rec.key = key → ∀ k, k ≠ key → ∀ name,
      (written w dst rec name).getRaw k = (w name).getRaw k := by
    rintro dst rec rfl k other name
    exact written_getRaw_ne (Ne.symm other)
  cases atA : (w a).getRaw key with
  | none =>
    cases atB : (w b).getRaw key with
    | none => exact keyDone_of_agree (by rw [Agree, atA, atB]) (by rw [atA, atB]; rfl)
    | some rec =>
      have own := MemStore.key_of_getRaw atB
      have differ : ¬ Agree w a b key := by simp [Agree, atA, atB]
      have quiet : clash blobs ancestry key ((w a).getRaw key) ((w b).getRaw key) = none := by
        rw [atA, atB]
        rfl
      have writeOk := free differ quiet
      refine Wp.bind_iff.mpr (quiet_copy (own ▸ atA) (own ▸ writeOk) ?_)
      exact keyDone_of_writes (frame own) quiet differ
        (own ▸ agree_written distinct (Or.inl ⟨rfl, own ▸ atB⟩)) fun _ => ⟨rfl, rfl⟩
  | some recA =>
    have ownA := MemStore.key_of_getRaw atA
    cases atB : (w b).getRaw key with
    | none =>
      have differ : ¬ Agree w a b key := by simp [Agree, atA, atB]
      have quiet : clash blobs ancestry key ((w a).getRaw key) ((w b).getRaw key) = none := by
        rw [atA, atB]
        rfl
      have writeOk := free differ quiet
      refine Wp.bind_iff.mpr (quiet_copy (ownA ▸ atB) (ownA ▸ writeOk) ?_)
      exact keyDone_of_writes (frame ownA) quiet differ
        (ownA ▸ agree_written distinct (Or.inr ⟨rfl, ownA ▸ atA⟩)) fun _ => ⟨rfl, rfl⟩
    | some recB =>
      have ownB := MemStore.key_of_getRaw atB
      have quiet : relate recA recB ≠ .diverged →
          clash blobs ancestry key ((w a).getRaw key) ((w b).getRaw key) = none := by
        intro ordered
        rw [atA, atB, clash, if_neg ordered]
      have differ : recA.revision ≠ recB.revision → ¬ Agree w a b key := by
        simp [Agree, atA, atB]
      simp only [seqPost]
      cases related : relate recA recB with
      | inSync =>
        refine keyDone_of_agree ?_ (quiet (by simp [related]))
        rw [Agree, atA, atB, Option.map_some, Option.map_some, relate_inSync.mp related]
      | aAhead =>
        have calm := quiet (by simp [related])
        have apart := differ (relate_aAhead related).1
        refine Wp.bind_iff.mpr (quiet_overwrite (ownA ▸ atB) (ownA ▸ free apart calm) ?_)
        exact keyDone_of_writes (frame ownA) calm apart
          (ownA ▸ agree_written distinct (Or.inr ⟨rfl, ownA ▸ atA⟩)) fun _ => ⟨rfl, rfl⟩
      | bAhead =>
        have calm := quiet (by simp [related])
        have apart := differ (relate_bAhead related).1
        refine Wp.bind_iff.mpr (quiet_overwrite (ownB ▸ atA) (ownB ▸ free apart calm) ?_)
        exact keyDone_of_writes (frame ownB) calm apart
          (ownB ▸ agree_written distinct (Or.inl ⟨rfl, ownB ▸ atB⟩)) fun _ => ⟨rfl, rfl⟩
      | diverged => exact quiet_reconcileDiverged distinct atA atB related free

/-- The loop of a pass has settled every key but those of `rest`, which still hold
what they held at the start. -/
structure PassInv (blobs : Blobs) (ancestry : Bool) (a b : σ) (w₀ : σ → MemStore)
    (rest : List RecordKey) (w : σ → MemStore) (s : PassState) : Prop where
  raced : s.raced = []
  unconverged : s.report.unconverged = []
  ahead : ∀ key ∈ rest, ∀ name, (w name).getRaw key = (w₀ name).getRaw key
  clashed : ∀ key, clash blobs ancestry key ((w₀ a).getRaw key) ((w₀ b).getRaw key) ≠ none →
    ∀ name, (w name).getRaw key = (w₀ name).getRaw key
  settled : ∀ key, key ∉ rest →
    clash blobs ancestry key ((w₀ a).getRaw key) ((w₀ b).getRaw key) = none → Agree w a b key
  quiet : (∀ key, clash blobs ancestry key ((w₀ a).getRaw key) ((w₀ b).getRaw key) = none →
    Agree w₀ a b key) → w = w₀

/-- A pass over all keys of two quiet stores settles every key, reports exactly the
clashes, in key order, and writes only where the stores neither agree nor clash. -/
structure PassDone (blobs : Blobs) (ancestry : Bool) (a b : σ) (w₀ w : σ → MemStore)
    (s : PassState) : Prop extends PassInv blobs ancestry a b w₀ [] w s where
  conflicts : s.report.conflicts =
    (ascending ((w₀ a).listRaw .all ++ (w₀ b).listRaw .all)).filterMap fun key =>
      clash blobs ancestry key ((w₀ a).getRaw key) ((w₀ b).getRaw key)

omit [DecidableEq σ] [Blake3] in
/-- One turn of the loop. -/
theorem passInv_step {a b : σ} {ancestry : Bool} {w₀ w w' : σ → MemStore} {s s' : PassState}
    {key : RecordKey} {rest : List RecordKey} {found : Option SyncConflict}
    (inv : PassInv blobs ancestry a b w₀ (key :: rest) w s)
    (settles : Settles blobs ancestry a b key w w') (reports : Reports s s' found)
    (fresh : key ∉ rest) : PassInv blobs ancestry a b w₀ rest w' s' := by
  have here := inv.ahead key List.mem_cons_self
  refine ⟨reports.raced.trans inv.raced, reports.unconverged.trans inv.unconverged,
    fun k member name => ?_, fun k clashed name => ?_, fun k absent calm => ?_, fun agreeing => ?_⟩
  · have other : k ≠ key := fun same => fresh (same ▸ member)
    rw [settles.frame k other name]
    exact inv.ahead k (List.mem_cons_of_mem _ member) name
  · by_cases same : k = key
    · subst same
      rw [settles.clashed (by rwa [here a, here b])]
      exact here name
    · rw [settles.frame k same name]
      exact inv.clashed k clashed name
  · by_cases same : k = key
    · subst same
      exact settles.settled (by rwa [here a, here b])
    · rw [Agree, settles.frame k same a, settles.frame k same b]
      exact inv.settled k (by simp [same, absent]) calm
  · have unmoved := inv.quiet agreeing
    subst unmoved
    by_cases calm : clash blobs ancestry key ((w a).getRaw key) ((w b).getRaw key) = none
    · exact settles.kept (agreeing key calm)
    · exact settles.clashed calm

theorem quiet_syncPass {a b : σ} {ancestry : Bool} {w₀ : σ → MemStore} (distinct : a ≠ b)
    (free : ∀ key, ¬ Agree w₀ a b key →
      clash blobs ancestry key ((w₀ a).getRaw key) ((w₀ b).getRaw key) = none → writable key) :
    Wp (quietContract blobs nowMs writable)
      (fun w result => ∃ s, result = .ok s ∧ PassDone blobs ancestry a b w₀ w s) w₀
      (syncPass a b ancestry) := by
  refine Wp.bind_iff.mpr (quiet_listRaw (Wp.bind_iff.mpr (quiet_listRaw ?_)))
  simp only [seqPost]
  generalize allKeys : ascending ((w₀ a).listRaw .all ++ (w₀ b).listRaw .all) = keys
  have unlisted : ∀ key, key ∉ keys → ∀ name, name = a ∨ name = b →
      (w₀ name).getRaw key = none := by
    intro key unlisted name side
    by_contra present
    obtain ⟨r, stored⟩ := Option.ne_none_iff_exists'.mp present
    refine unlisted (allKeys ▸ mem_ascending.mpr (List.mem_append.mpr ?_))
    rcases side with rfl | rfl
    · exact Or.inl (MemStore.mem_listRaw.mpr ⟨⟨r, stored⟩, rfl⟩)
    · exact Or.inr (MemStore.mem_listRaw.mpr ⟨⟨r, stored⟩, rfl⟩)
  let clashAt := fun key => clash blobs ancestry key ((w₀ a).getRaw key) ((w₀ b).getRaw key)
  refine Wp.foldlM (fun rest w s => rest.Nodup ∧ PassInv blobs ancestry a b w₀ rest w s ∧
    s.report.conflicts ++ rest.filterMap clashAt = keys.filterMap clashAt) ?_ ?_ ?_
  · rintro key rest w s ⟨nodup, inv, reported⟩
    obtain ⟨fresh, nodup'⟩ := List.nodup_cons.mp nodup
    have hereA := inv.ahead key List.mem_cons_self a
    have hereB := inv.ahead key List.mem_cons_self b
    have same : Agree w a b key ↔ Agree w₀ a b key := by rw [Agree, Agree, hereA, hereB]
    refine (quiet_syncKey distinct ?_).mono ?_
    · rw [same, hereA, hereB]
      exact free key
    · rintro w' _ ⟨settles, s', rfl, reports⟩
      rw [hereA, hereB] at reports
      refine ⟨nodup', passInv_step inv settles reports fresh, ?_⟩
      rw [reports.conflicts, List.append_assoc, ← reported, List.filterMap_cons]
      change s.report.conflicts ++ ((clashAt key).toList ++ _) = _
      cases clashAt key <;> rfl
  · rintro w s ⟨-, inv, reported⟩
    exact ⟨s, rfl, inv, by rw [allKeys]; simpa using reported⟩
  · refine ⟨allKeys ▸ nodup_ascending _, ⟨rfl, rfl, fun _ _ _ => rfl, fun _ _ _ => rfl, ?_,
      fun _ => rfl⟩, List.nil_append _⟩
    intro key absent _
    rw [Agree, unlisted key absent a (Or.inl rfl), unlisted key absent b (Or.inr rfl)]

/-- No write of a sync alone loses a race, so the first pass is the last. -/
theorem quiet_syncWithAncestry (blobs : Blobs) (nowMs : Int) (ancestry : Bool)
    (writable : RecordKey → Prop) {a b : σ} {w₀ : σ → MemStore} (distinct : a ≠ b)
    (free : ∀ key, ¬ Agree w₀ a b key →
      clash blobs ancestry key ((w₀ a).getRaw key) ((w₀ b).getRaw key) = none → writable key) :
    Wp (quietContract blobs nowMs writable)
      (fun w result => ∃ s, result = .ok s.report ∧ PassDone blobs ancestry a b w₀ w s) w₀
      (syncWithAncestry a b ancestry) := by
  refine Wp.bind_iff.mpr ((quiet_syncPass distinct free).mono ?_)
  rintro w _ ⟨s, rfl, done⟩
  simp only [seqPost, done.raced, List.isEmpty_nil, if_true]
  exact ⟨s, rfl, done⟩

/-! ## Convergence and idempotence -/

omit [DecidableEq σ] [Blake3] in
theorem clash_key {ancestry : Bool} {key : RecordKey} {ra rb : Option Record} {c : SyncConflict}
    (clashed : clash blobs ancestry key ra rb = some c) : c.key = key := by
  unfold clash at clashed
  split at clashed
  · split at clashed
    · split at clashed
      · cases clashed
      · cases clashed
        rfl
      · cases clashed
        rfl
      · split at clashed
        · cases clashed
        · cases clashed
          rfl
    · cases clashed
  · cases clashed

omit [DecidableEq σ] [Blake3] in
theorem clash_of_agree {a b : σ} {ancestry : Bool} {key : RecordKey} {w : σ → MemStore}
    (agree : Agree w a b key) :
    clash blobs ancestry key ((w a).getRaw key) ((w b).getRaw key) = none := by
  unfold Agree at agree
  match atA : (w a).getRaw key, atB : (w b).getRaw key with
  | none, _ => rfl
  | some recA, none => rfl
  | some recA, some recB =>
    rw [atA, atB, Option.map_some, Option.map_some, Option.some_inj] at agree
    rw [clash, relate_inSync.mpr agree]
    rfl

omit [DecidableEq σ] [Blake3] in
/-- The keys a pass reports are the clashing ones, in order. -/
theorem PassDone.conflict_keys {a b : σ} {ancestry : Bool} {w₀ w : σ → MemStore} {s : PassState}
    (done : PassDone blobs ancestry a b w₀ w s) :
    (s.report.conflicts.map SyncConflict.key).Pairwise (· < ·) ∧
      ∀ key, key ∈ s.report.conflicts.map SyncConflict.key ↔
        clash blobs ancestry key ((w₀ a).getRaw key) ((w₀ b).getRaw key) ≠ none := by
  rw [done.conflicts]
  constructor
  · rw [List.pairwise_map, List.pairwise_filterMap]
    refine (pairwise_ascending _).imp fun {k k'} before c clashed c' clashed' => ?_
    rwa [clash_key clashed, clash_key clashed']
  · intro key
    constructor
    · rintro member
      obtain ⟨c, listed, rfl⟩ := List.mem_map.mp member
      obtain ⟨k, -, clashed⟩ := List.mem_filterMap.mp listed
      have own := clash_key clashed
      subst own
      rw [clashed]
      exact Option.some_ne_none c
    · intro clashes
      obtain ⟨c, clashed⟩ := Option.ne_none_iff_exists'.mp clashes
      refine List.mem_map.mpr ⟨c, List.mem_filterMap.mpr ⟨key, ?_, clashed⟩, clash_key clashed⟩
      refine mem_ascending.mpr (List.mem_append.mpr (Or.inl ?_))
      cases atA : (w₀ a).getRaw key with
      | none => simp [atA, clash] at clashed
      | some r => exact MemStore.mem_listRaw.mpr ⟨⟨r, atA⟩, rfl⟩

/-- Sync two quiet stores, whatever they hold. It ends, and no write lost a race.
Every key it does not report holds one revision on both sides, or nothing; every
key it reports is as it was. A second sync at once leaves the stores alone, issues
no write, and reports the same keys. -/
theorem sync_converges {a b : σ} (distinct : a ≠ b) (blobs : Blobs) (ancestry : Bool)
    (nowMs nowMs' : Int) (w₀ : σ → MemStore) :
    ∃ report w, (syncWithAncestry a b ancestry).exec (serveStores blobs nowMs) w₀ =
        (w, .ok report) ∧
      report.unconverged = [] ∧
      (∀ key, key ∉ report.conflicts.map SyncConflict.key →
        ((w a).getRaw key).map Record.revision = ((w b).getRaw key).map Record.revision) ∧
      (∀ key ∈ report.conflicts.map SyncConflict.key, ∀ name,
        (w name).getRaw key = (w₀ name).getRaw key) ∧
      ∃ report', (syncWithAncestry a b ancestry).exec (serveStores blobs nowMs') w =
          (w, .ok report') ∧
        report'.conflicts.map SyncConflict.key = report.conflicts.map SyncConflict.key ∧
        ∀ req ∈ (syncWithAncestry a b ancestry).trace (serveStores blobs nowMs') w,
          req.isWrite = false := by
  have first := (quiet_syncWithAncestry blobs nowMs ancestry (fun _ => True) distinct
    fun key (_ : ¬ Agree w₀ a b key) _ => trivial).exec_server.1
  generalize (syncWithAncestry a b ancestry).exec (serveStores blobs nowMs) w₀ = ended at first ⊢
  obtain ⟨w, result⟩ := ended
  obtain ⟨s, rfl, done⟩ := first
  -- at every key the stores now agree, or clash as before
  have clash_iff : ∀ key, clash blobs ancestry key ((w a).getRaw key) ((w b).getRaw key) ≠ none ↔
      clash blobs ancestry key ((w₀ a).getRaw key) ((w₀ b).getRaw key) ≠ none := by
    intro key
    by_cases calm : clash blobs ancestry key ((w₀ a).getRaw key) ((w₀ b).getRaw key) = none
    · have agree := done.settled key List.not_mem_nil calm
      simp [clash_of_agree agree, calm]
    · rw [done.clashed key calm a, done.clashed key calm b]
  have settled : ∀ key, clash blobs ancestry key ((w a).getRaw key) ((w b).getRaw key) = none →
      Agree w a b key := fun key calm =>
    done.settled key List.not_mem_nil (by simpa using mt (clash_iff key).mpr (not_not.mpr calm))
  have second := (quiet_syncWithAncestry blobs nowMs' ancestry (fun _ => False) distinct
    fun key differ calm => differ (settled key calm)).exec_server
  obtain ⟨⟨s', ended, again⟩, issued⟩ := second
  have still := again.quiet settled
  obtain ⟨sorted, reported⟩ := done.conflict_keys
  obtain ⟨sorted', reported'⟩ := again.conflict_keys
  refine ⟨s.report, w, rfl, done.unconverged, fun key unreported => ?_, fun key member => ?_,
    s'.report, Prod.ext still ended, ?_, fun req member => ?_⟩
  · exact done.settled key List.not_mem_nil (by simpa using mt (reported key).mpr unreported)
  · exact done.clashed key ((reported key).mp member)
  · exact sorted'.eq_of_mem_iff sorted fun key => by rw [reported', reported, clash_iff]
  · have allowed := issued req member
    cases req with
    | getBlob hash => rfl
    | store name req =>
      cases req with
      | putRaw rec expected => exact allowed.elim
      | _ => exact allowed

end Settle

attribute [local instance] sampleBlake3 plainSerde

/-- Two edits of one topic, each in a store of its own. -/
def twoEdits (name : Bool) : MemStore :=
  (MemStore.empty 2 Nat.two_pos).insert (topicAt rustKey 1 (if name then "v1" else "v0"))

theorem twoEdits_converge :
    ∃ report w, (sync false true).exec (serveStores (fun _ => .ok none) 0) twoEdits =
        (w, .ok report) ∧ report.unconverged = [] ∧
      ∀ key, key ∉ report.conflicts.map SyncConflict.key →
        ((w false).getRaw key).map Record.revision = ((w true).getRaw key).map Record.revision := by
  obtain ⟨report, w, ran, settled, agree, -⟩ :=
    sync_converges Bool.false_ne_true (fun _ => .ok none) false 0 0 twoEdits
  exact ⟨report, w, ran, settled, agree⟩

end Gonzalo.Core
