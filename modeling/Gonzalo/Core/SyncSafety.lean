import Gonzalo.Core.Fleet

/-!
# What a sync may write

`Justified` says which write the last two reads of a key allow, `syncContract`
that a sync lists, reads, and writes nothing else, and `wp_syncWithAncestry` that
the code of a sync stays within that contract. In a fleet the contract holds at
every point of every run, whatever other clients do between two calls of a sync.
-/

set_option autoImplicit false

namespace Gonzalo.Core
open Gonzalo.Lib

variable {σ ι : Type}

/-! ## The write a pair of reads justifies -/

section Justification

variable [Blake3] [Serde]

/-- `rec` reconciles two diverged records: the tombstone winner of two tombstones,
or the merge of two live records. -/
def Reconciles (recA recB rec : Record) : Prop :=
  (recA.isTombstone = true ∧ recB.isTombstone = true ∧
      rec = tombstoneWinner recA recB (losslessCap recA recB)) ∨
    (recA.isTombstone = false ∧ recB.isTombstone = false ∧
      ∃ base body, merge recA.kind.mergeClass base recA.body recB.body = .merged body ∧
        rec = buildMerged recA recB body)

/-- The writes a sync of `a` and `b` that read `ra` in `a` and `rb` in `b` may
issue: where, what, and expecting which revision. -/
inductive Justified (a b : σ) : Option Record → Option Record → σ → Record → Option Revision → Prop
  | copyToB (rec : Record) : Justified a b (some rec) none b rec none
  | copyToA (rec : Record) : Justified a b none (some rec) a rec none
  | forwardB (recA recB : Record) (ahead : relate recA recB = .aAhead) :
      Justified a b (some recA) (some recB) b recA (some recB.revision)
  | forwardA (recA recB : Record) (ahead : relate recA recB = .bAhead) :
      Justified a b (some recA) (some recB) a recB (some recA.revision)
  | reconcileA (recA recB rec : Record) (diverged : relate recA recB = .diverged)
      (reconciles : Reconciles recA recB rec) :
      Justified a b (some recA) (some recB) a rec (some recA.revision)
  | reconcileB (recA recB rec : Record) (diverged : relate recA recB = .diverged)
      (reconciles : Reconciles recA recB rec) :
      Justified a b (some recA) (some recB) b rec (some recB.revision)

end Justification

theorem Reconciles.key_eq [Blake3] [Serde] {recA recB rec : Record}
    (reconciles : Reconciles recA recB rec) (same : recB.key = recA.key) : rec.key = recA.key := by
  rcases reconciles with ⟨-, -, rfl⟩ | ⟨-, -, base, body, -, rfl⟩
  · exact tombstoneWinner_key _ same
  · rfl

/-! ## The contract of a sync -/

/-- What a sync client knows: its two stores, and its last raw read per store and key. -/
structure SyncView (σ : Type) where
  a : σ
  b : σ
  seen : σ → RecordKey → Option (Option Record)

/-- The view after reading `found` at `key` of store `name`. -/
def SyncView.note [DecidableEq σ] (v : SyncView σ) (name : σ) (key : RecordKey)
    (found : Option Record) : SyncView σ :=
  { v with seen := Function.update v.seen name (Function.update (v.seen name) key (some found)) }

section Contract

variable [DecidableEq σ] [Blake3] [Serde]

/-- A sync lists, reads, and writes only what its last reads of the key justify. -/
def syncContract : Contract (syncInterface σ) (SyncView σ) where
  guard v
    | .store name (.putRaw rec expected) =>
      ∃ ra rb, v.seen v.a rec.key = some ra ∧ v.seen v.b rec.key = some rb ∧
        Justified v.a v.b ra rb name rec expected
    | .store _ (.getRaw _) => True
    | .store _ (.listRaw _) => True
    | .store _ _ => False
    | .getBlob _ => True
  turn v req answer v' :=
    match req, answer with
    | .store name (.getRaw key), .ok found =>
      (∀ r, found = some r → r.key = key) ∧ v' = v.note name key found
    | _, _ => v' = v

theorem wp_listRaw (post : SyncView σ → Except CoreError (List RecordKey) → Prop)
    {v : SyncView σ} {name : σ} (then_ : ∀ result, post v result) :
    Wp syncContract post v (listRaw name) := by
  refine ⟨trivial, fun answer v' turned => ?_⟩
  cases turned
  cases answer with
  | ok keys => exact then_ (.ok keys)
  | error e => exact then_ (.error e)

theorem wp_getRaw {post : SyncView σ → Except CoreError (Option Record) → Prop}
    {v : SyncView σ} {name : σ} {key : RecordKey}
    (found : ∀ r, (∀ x, r = some x → x.key = key) → post (v.note name key r) (.ok r))
    (error : ∀ e, post v (.error e)) : Wp syncContract post v (getRaw name key) := by
  refine ⟨trivial, fun answer v' turned => ?_⟩
  cases answer with
  | ok r =>
    obtain ⟨keyed, rfl⟩ := turned
    exact found r keyed
  | error e =>
    cases turned
    exact error e

theorem wp_copy (post : SyncView σ → Except CoreError Bool → Prop) {v : SyncView σ} {dst : σ}
    {rec : Record} (justified : syncContract.guard v (.store dst (.putRaw rec none)))
    (then_ : ∀ result, post v result) : Wp syncContract post v (copy dst rec) := by
  refine ⟨justified, fun answer v' turned => ?_⟩
  cases turned
  rcases answer with e | ⟨rev⟩ | ⟨c⟩ <;> exact then_ _

theorem wp_overwrite (post : SyncView σ → Except CoreError Bool → Prop) {v : SyncView σ} {dst : σ}
    {rec : Record} {expected : Revision}
    (justified : syncContract.guard v (.store dst (.putRaw rec (some expected))))
    (then_ : ∀ result, post v result) : Wp syncContract post v (overwrite dst rec expected) := by
  refine ⟨justified, fun answer v' turned => ?_⟩
  cases turned
  rcases answer with (e | e | e | e) | ⟨rev⟩ | ⟨c⟩ <;> exact then_ _

theorem wp_overwriteBoth (post : SyncView σ → Except CoreError Bool → Prop) {v : SyncView σ}
    {rec : Record} {revA revB : Revision}
    (left : syncContract.guard v (.store v.a (.putRaw rec (some revA))))
    (right : syncContract.guard v (.store v.b (.putRaw rec (some revB))))
    (then_ : ∀ result, post v result) :
    Wp syncContract post v (overwriteBoth v.a v.b rec revA revB) := by
  refine (wp_overwrite (fun v' _ => v' = v) left fun _ => rfl).bind ?_ ?_
  · rintro _ la rfl
    refine (wp_overwrite (fun v' _ => v' = _) right fun _ => rfl).bind ?_ ?_
    · rintro _ lb rfl
      exact then_ _
    · rintro _ e rfl
      exact then_ _
  · rintro _ e rfl
    exact then_ _

theorem wp_ancestryBase (post : SyncView σ → Except CoreError Body → Prop) {v : SyncView σ}
    {ancestry : Bool} {recA recB : Record} (then_ : ∀ base, post v (.ok base)) :
    Wp syncContract post v (ancestryBase ancestry recA recB) := by
  unfold ancestryBase
  split
  · split
    · refine ⟨trivial, fun answer v' turned => ?_⟩
      cases turned
      rcases answer with e | (_ | bytes) <;> exact then_ _
    · exact then_ _
  · exact then_ _

/-- The last reads of `key` on both sides. -/
structure SyncView.Read (v : SyncView σ) (key : RecordKey) (ra rb : Option Record) : Prop where
  atA : v.seen v.a key = some ra
  atB : v.seen v.b key = some rb
  keyedA : ∀ x, ra = some x → x.key = key
  keyedB : ∀ x, rb = some x → x.key = key

theorem SyncView.Read.guard {v : SyncView σ} {key : RecordKey} {ra rb : Option Record}
    (read : v.Read key ra rb) {dst : σ} {rec : Record} {expected : Option Revision}
    (own : rec.key = key) (justified : Justified v.a v.b ra rb dst rec expected) :
    syncContract.guard v (.store dst (.putRaw rec expected)) :=
  ⟨ra, rb, by rw [own]; exact read.atA, by rw [own]; exact read.atB, justified⟩

/-- The views of one sync: its two stores are fixed and distinct. -/
def SyncView.Pair (v : SyncView σ) (a b : σ) : Prop := v.a = a ∧ v.b = b ∧ a ≠ b

theorem wp_reconcileDiverged {a b : σ} {v : SyncView σ} {ancestry : Bool} {key : RecordKey}
    {recA recB : Record} {s : PassState} (pair : v.Pair a b)
    (read : v.Read key (some recA) (some recB)) (diverged : relate recA recB = .diverged) :
    Wp syncContract (fun v' _ => v'.Pair a b) v
      (reconcileDiverged a b ancestry key recA recB s) := by
  obtain ⟨rfl, rfl, distinct⟩ := pair
  have keyA : recA.key = key := read.keyedA recA rfl
  have keyB : recB.key = recA.key := (read.keyedB recB rfl).trans keyA.symm
  -- both arms that write hand the same reconciliation to both sides
  have both : ∀ rec, Reconciles recA recB rec → ∀ note,
      Wp syncContract (fun v' _ => v'.Pair v.a v.b) v
        (overwriteBoth v.a v.b rec recA.revision recB.revision >>= fun landed =>
          Program.done (s.settle key landed note)) := by
    intro rec reconciles note
    have own : rec.key = key := (reconciles.key_eq keyB).trans keyA
    refine (wp_overwriteBoth (fun v' _ => v' = v)
      (read.guard own (.reconcileA recA recB rec diverged reconciles))
      (read.guard own (.reconcileB recA recB rec diverged reconciles)) fun _ => rfl).bind ?_ ?_
    · rintro _ landed rfl
      exact ⟨rfl, rfl, distinct⟩
    · rintro _ e rfl
      exact ⟨rfl, rfl, distinct⟩
  unfold reconcileDiverged
  split
  next deadA deadB => exact both _ (Or.inl ⟨deadA, deadB, rfl⟩) _
  · exact ⟨rfl, rfl, distinct⟩
  · exact ⟨rfl, rfl, distinct⟩
  next liveA liveB =>
    refine (wp_ancestryBase (fun v' result => v' = v ∧ ∃ base, result = .ok base)
      fun base => ⟨rfl, base, rfl⟩).bind ?_ ?_
    · rintro _ base ⟨rfl, -⟩
      cases merging : merge recA.kind.mergeClass base recA.body recB.body with
      | merged body =>
        exact both _ (Or.inr ⟨liveA, liveB, base, body, merging, rfl⟩) _
      | needsResolution => exact ⟨rfl, rfl, distinct⟩
    · rintro _ e ⟨rfl, _, absurd_⟩
      cases absurd_

/-- One key: whatever was read, only a justified write follows. -/
theorem wp_syncKey {a b : σ} {v : SyncView σ} {ancestry : Bool} {s : PassState}
    {key : RecordKey} (pair : v.Pair a b) :
    Wp syncContract (fun v' _ => v'.Pair a b) v (syncKey a b ancestry s key) := by
  obtain ⟨rfl, rfl, distinct⟩ := pair
  refine Wp.bind_iff.mpr (wp_getRaw (fun ra keyedA => ?_) fun e => ⟨rfl, rfl, distinct⟩)
  refine Wp.bind_iff.mpr (wp_getRaw (fun rb keyedB => ?_) fun e => ⟨rfl, rfl, distinct⟩)
  generalize seen : (v.note v.a key ra).note v.b key rb = w
  have pair : w.Pair v.a v.b := by subst seen; exact ⟨rfl, rfl, distinct⟩
  have read : w.Read key ra rb := by
    subst seen
    exact ⟨by simp [SyncView.note, distinct], by simp [SyncView.note], keyedA, keyedB⟩
  obtain ⟨atA, atB, -⟩ := pair
  rw [← atA, ← atB]
  have one : ∀ (p : SyncProgram σ Bool) note,
      Wp syncContract (fun v' _ => v' = w) w p →
      Wp syncContract (fun v' _ => v'.Pair w.a w.b) w
        (p >>= fun landed => Program.done (s.settle key landed note)) := by
    intro p note only
    refine only.bind ?_ ?_
    · rintro _ landed rfl
      exact ⟨rfl, rfl, by rwa [atA, atB]⟩
    · rintro _ e rfl
      exact ⟨rfl, rfl, by rwa [atA, atB]⟩
  have unchanged : w.Pair w.a w.b := ⟨rfl, rfl, by rwa [atA, atB]⟩
  match ra, rb with
  | some rec, none =>
    exact one _ _ (wp_copy _ (read.guard (read.keyedA rec rfl) (.copyToB rec)) fun _ => rfl)
  | none, some rec =>
    exact one _ _ (wp_copy _ (read.guard (read.keyedB rec rfl) (.copyToA rec)) fun _ => rfl)
  | none, none => exact unchanged
  | some recA, some recB =>
    cases related : relate recA recB with
    | inSync =>
      simp only [seqPost, related]
      exact unchanged
    | aAhead =>
      simp only [seqPost, related]
      exact one _ _ (wp_overwrite _
        (read.guard (read.keyedA recA rfl) (.forwardB recA recB related)) fun _ => rfl)
    | bAhead =>
      simp only [seqPost, related]
      exact one _ _ (wp_overwrite _
        (read.guard (read.keyedB recB rfl) (.forwardA recA recB related)) fun _ => rfl)
    | diverged =>
      simp only [seqPost, related]
      exact wp_reconcileDiverged unchanged read related

/-- A whole sync stays within the contract. -/
theorem wp_syncWithAncestry {a b : σ} {v : SyncView σ} {ancestry : Bool} (pair : v.Pair a b) :
    Wp syncContract (fun v' _ => v'.Pair a b) v (syncWithAncestry a b ancestry) := by
  have pass : ∀ {v : SyncView σ}, v.Pair a b →
      Wp syncContract (fun v' _ => v'.Pair a b) v (syncPass a b ancestry) := by
    intro v pair
    refine (wp_listRaw (fun v' _ => v' = v) fun _ => rfl).bind ?_ (by rintro _ e rfl; exact pair)
    rintro _ keysA rfl
    refine (wp_listRaw (fun v' _ => v' = _) fun _ => rfl).bind ?_ (by rintro _ e rfl; exact pair)
    rintro _ keysB rfl
    refine Wp.foldlM (fun _ v' _ => v'.Pair a b) ?_ (fun _ _ held => held) pair
    intro key rest v' acc held
    exact (wp_syncKey held).mono fun v'' result held' => by cases result <;> exact held'
  have loop : ∀ passes report {v : SyncView σ}, v.Pair a b →
      Wp syncContract (fun v' _ => v'.Pair a b) v (syncLoop a b ancestry passes report) := by
    intro passes
    induction passes with
    | zero => exact fun _ _ pair => pair
    | succ passes ih =>
      intro report v pair
      refine (pass pair).bind ?_ fun _ _ held => held
      intro v' s held
      split
      · exact held
      · exact ih _ held
  exact loop _ _ pair

end Contract

/-! ## Runs of a fleet -/

section Runs

variable [DecidableEq σ] [DecidableEq ι] [Blake3] [Serde]

/-- What sync client `i` knows in a state of the fleet. -/
def Fleet.view (w : Fleet σ ι) (peers : ι → σ × σ) (i : ι) : SyncView σ where
  a := (peers i).1
  b := (peers i).2
  seen := w.seen i

theorem Fleet.served_turn {w w' : Fleet σ ι} {peers : ι → σ × σ} {i : ι} {req : SyncReq σ}
    {answer : req.Ans} (served : Fleet.Served w i req answer w') :
    syncContract.turn (w.view peers i) req answer (w'.view peers i) := by
  cases served with
  | read name key =>
    refine ⟨fun r found => MemStore.key_of_getRaw found, ?_⟩
    simp [Fleet.view, Fleet.note, SyncView.note]
  | call name nowMs req other => cases req <;> first | rfl | exact absurd rfl (other _)
  | failed name req e => cases req <;> rfl
  | lost name nowMs req e => cases req <;> rfl
  | blob hash answer => rfl

omit [Serde] in
theorem Fleet.served_seen_ne {w w' : Fleet σ ι} {i j : ι} {req : SyncReq σ}
    {answer : req.Ans} (served : Fleet.Served w i req answer w') (other : j ≠ i) :
    w'.seen j = w.seen j := by
  cases served with
  | read name key => simp [Fleet.note, other]
  | _ => rfl

/-- The fleet's own views, with an invariant `inv` of the fleet that calls of
other clients and of covered syncs keep. -/
theorem Fleet.logic {peers : ι → σ × σ} (distinct : ∀ i, (peers i).1 ≠ (peers i).2)
    {client : MemStore → StoreReq → Prop} {admitted : Fleet σ ι → Prop} {inv : Fleet σ ι → Prop}
    (served : ∀ w w' i req answer, inv w → admitted w →
      syncContract.guard (w.view peers i) req → Fleet.Served w i req answer w' → inv w')
    (ambient : ∀ w name nowMs req, inv w → admitted w → client (w.stores name) req →
      inv (w.consumerCall name nowMs req)) :
    Pool.Logic (Fleet.rules peers client admitted) syncContract
      (fun i v _ => v.Pair (peers i).1 (peers i).2)
      fun c views => inv c.world ∧ ∀ i, views i = c.world.view peers i where
  start := by
    rintro c views i _ ⟨held, known⟩ ⟨ancestry, rfl⟩
    refine ⟨c.world.view peers i, wp_syncWithAncestry ⟨rfl, rfl, distinct i⟩, held, fun j => ?_⟩
    by_cases same : j = i
    · subst same
      rw [Function.update_self]
      rfl
    · rw [Function.update_of_ne same]
      exact known j
  serve := by
    rintro c views i req next answer world' ⟨held, known⟩ - admitted' guarded answered
    rw [known i] at guarded ⊢
    refine ⟨world'.view peers i, Fleet.served_turn answered, fun _ => ?_⟩
    refine ⟨served _ _ i req answer held admitted' guarded answered, fun j => ?_⟩
    by_cases same : j = i
    · subst same
      rw [Function.update_self]
      rfl
    · rw [Function.update_of_ne same, known j]
      simp [Fleet.view, Fleet.served_seen_ne answered same]
  ambient := by
    rintro c views world' ⟨held, known⟩ ⟨admitted', name, nowMs, req, allowed, rfl⟩
    exact ⟨ambient _ name nowMs req held admitted' allowed, known⟩

/-- In every state of every run each sync is covered by its contract, and an
invariant of the calls holds of the fleet. -/
theorem Fleet.covered {peers : ι → σ × σ} {client : MemStore → StoreReq → Prop}
    {admitted : Fleet σ ι → Prop} (inv : Fleet σ ι → Prop)
    (distinct : ∀ i, (peers i).1 ≠ (peers i).2)
    (served : ∀ w w' i req answer, inv w → admitted w →
      syncContract.guard (w.view peers i) req → Fleet.Served w i req answer w' → inv w')
    (ambient : ∀ w name nowMs req, inv w → admitted w → client (w.stores name) req →
      inv (w.consumerCall name nowMs req))
    {c₀ c : FleetPool σ ι} (idle : c₀.Idle) (start : inv c₀.world)
    (run : Pool.Reaches (Fleet.rules peers client admitted) c₀ c) :
    inv c.world ∧ ∀ i p, c.clients i = some p →
      Wp syncContract (fun v _ => v.Pair (peers i).1 (peers i).2) (c.world.view peers i) p := by
  obtain ⟨views, ⟨held, known⟩, covered⟩ :=
    Pool.wp_invariant (Fleet.logic distinct served ambient) run
      ⟨_, ⟨start, fun i => rfl⟩, fun i p at_p => by simp [idle i] at at_p⟩
  exact ⟨held, fun i p at_p => known i ▸ covered i p at_p⟩

/-- A committed sync write of `rec` to `dst` over `old`, where the sync of `a` and
`b` read `ra` and `rb`: it creates, or `rec` descends from `old`, or it puts a
reconciliation in the place of an input's revision. -/
inductive Replaces (a b : σ) (ra rb : Option Record) (dst : σ) : Option Record → Record → Prop
  | created (rec : Record) : Replaces a b ra rb dst none rec
  | superseded (old rec : Record) (named : old.revision ∈ rec.ancestors) :
      Replaces a b ra rb dst (some old) rec
  | reconciled (old rec recA recB : Record) (readA : ra = some recA) (readB : rb = some recB)
      (diverged : relate recA recB = .diverged) (reconciles : Reconciles recA recB rec)
      (input : dst = a ∧ old.revision = recA.revision ∨ dst = b ∧ old.revision = recB.revision) :
      Replaces a b ra rb dst (some old) rec

omit [DecidableEq σ] in
/-- What a justified write that commits replaces. -/
theorem Justified.replaces {a b dst : σ} {ra rb current : Option Record} {rec : Record}
    {expected : Option Revision} (justified : Justified a b ra rb dst rec expected)
    (fresh : expected = current.map Record.revision) : Replaces a b ra rb dst current rec := by
  cases justified with
  | copyToB rec =>
    cases current with
    | none => exact .created rec
    | some old => cases fresh
  | copyToA rec =>
    cases current with
    | none => exact .created rec
    | some old => cases fresh
  | forwardB recA recB ahead =>
    obtain ⟨old, rfl, same⟩ := Option.map_eq_some_iff.mp fresh.symm
    exact .superseded old _ (same ▸ (relate_aAhead ahead).2)
  | forwardA recA recB ahead =>
    obtain ⟨old, rfl, same⟩ := Option.map_eq_some_iff.mp fresh.symm
    exact .superseded old _ (same ▸ (relate_bAhead ahead).2)
  | reconcileA recA recB rec diverged reconciles =>
    obtain ⟨old, rfl, same⟩ := Option.map_eq_some_iff.mp fresh.symm
    exact .reconciled old rec recA recB rfl rfl diverged reconciles (Or.inl ⟨rfl, same⟩)
  | reconcileB recA recB rec diverged reconciles =>
    obtain ⟨old, rfl, same⟩ := Option.map_eq_some_iff.mp fresh.symm
    exact .reconciled old rec recA recB rfl rfl diverged reconciles (Or.inr ⟨rfl, same⟩)

theorem Reconciles.same_liveness {recA recB rec : Record} (reconciles : Reconciles recA recB rec) :
    recA.isTombstone = recB.isTombstone := by
  rcases reconciles with ⟨deadA, deadB, -⟩ | ⟨liveA, liveB, -⟩
  · rw [deadA, deadB]
  · rw [liveA, liveB]

omit [DecidableEq σ] in
/-- A pair that diverged with one side deleted justifies no write. -/
theorem Justified.same_liveness {a b dst : σ} {recA recB rec : Record}
    {expected : Option Revision}
    (justified : Justified a b (some recA) (some recB) dst rec expected)
    (diverged : relate recA recB = .diverged) : recA.isTombstone = recB.isTombstone := by
  cases justified with
  | forwardB recA recB ahead => simp [ahead] at diverged
  | forwardA recA recB ahead => simp [ahead] at diverged
  | reconcileA recA recB rec _ reconciles => exact reconciles.same_liveness
  | reconcileB recA recB rec _ reconciles => exact reconciles.same_liveness

/-- A call of a sync that loses no update. It changes no store, or it is a
replication write: over what its store holds by now it creates, supersedes an
ancestor, or puts the reconciliation of the two records the sync read in the place
of that side's revision, and the pair it read is not a live record and a tombstone
that diverged. -/
def Fleet.KeepsUpdates (w : Fleet σ ι) (peers : ι → σ × σ) (i : ι) (name : σ) (req : StoreReq)
    (nowMs : Int) : Prop :=
  ((w.stores name).serve nowMs req).1 = w.stores name ∨
    ∃ rec expected ra rb, req = .putRaw rec expected ∧
      w.seen i (peers i).1 rec.key = some ra ∧ w.seen i (peers i).2 rec.key = some rb ∧
      ((w.stores name).serve nowMs req).1 =
        (w.stores name).insert
          (rawRecord (w.getRaw name rec.key) rec (w.stores name).cap) ∧
      Replaces (peers i).1 (peers i).2 ra rb name (w.getRaw name rec.key) rec ∧
      ∀ recA recB, ra = some recA → rb = some recB → relate recA recB = .diverged →
        recA.isTombstone = recB.isTombstone

/-- In every state of every run the call a sync is about to make loses no update. -/
theorem sync_loses_no_update {peers : ι → σ × σ} (distinct : ∀ i, (peers i).1 ≠ (peers i).2)
    {c₀ c : FleetPool σ ι} (idle : c₀.Idle)
    (run : Pool.Reaches (Fleet.anyRules peers) c₀ c) {i : ι} {name : σ} {req : StoreReq}
    {next : req.Ans → SyncProgram σ SyncReport}
    (pending : c.clients i = some (.ask (.store name req) next)) (nowMs : Int) :
    c.world.KeepsUpdates peers i name req nowMs := by
  have covered := (Fleet.covered (fun _ => True) distinct (fun _ _ _ _ _ _ _ _ _ => trivial)
    (fun _ _ _ _ _ _ _ => trivial) idle trivial run).2 i _ pending
  have guarded := covered.1
  cases req with
  | putRaw rec expected =>
    obtain ⟨ra, rb, seenA, seenB, justified⟩ := guarded
    rcases (c.world.stores name).putRaw_effect nowMs rec expected with ⟨fresh, done⟩ | ⟨same, -⟩
    · refine Or.inr ⟨rec, expected, ra, rb, rfl, seenA, seenB, congrArg Prod.fst done,
        justified.replaces fresh, ?_⟩
      rintro recA recB rfl rfl diverged
      exact justified.same_liveness diverged
    · exact Or.inl same
  | getRaw key => exact Or.inl rfl
  | listRaw keys => exact Or.inl rfl
  | get key => exact guarded.elim
  | list keys => exact guarded.elim
  | put record expected => exact guarded.elim
  | deleteAs key expected author => exact guarded.elim
  | purge key expected => exact guarded.elim

end Runs


/-! ## A record with the revision that was read

The expected revision is all a replication write checks. A record that another
client stored meanwhile under the revision the sync read is replaced as well. -/

section SameRevision

/-- Two stores in which one key was deleted at counters 5 and 3. -/
def twoDeletions [Blake3] : FleetPool Bool Unit where
  world :=
    { stores := fun name =>
        (MemStore.empty 32 cap32_pos).insert
          (tombstoneOf (topicAt rustKey (if name then 2 else 4) "v0") 0 32 none)
      seen := fun _ _ _ => none
      recreated := fun _ _ => False }
  clients := fun _ => none

/-- The live record another client puts over the first tombstone, under its revision. -/
def overTombstone [Blake3] : Record := topicAt rustKey 5 "gonzalo:tombstone:v1"

/-- A sync of the two stores has listed both and read the key in both; then the
other client's write lands. -/
def racedSync [Blake3] [Serde] : FleetPool Bool Unit :=
  let paused := twoDeletions.syncSteps (fun _ => (false, true)) () 0 4
  { paused with
    world := paused.world.consumerCall false 0
      (.putRaw overTombstone (some overTombstone.revision)) }

theorem reaches_racedSync [Blake3] [Serde] :
    Pool.Reaches (Fleet.anyRules fun _ => (false, true)) twoDeletions racedSync :=
  (twoDeletions.reaches_syncSteps _ () 0 4).tail
    (.ambient _ ⟨trivial, false, 0, _, trivial, rfl⟩)

attribute [local instance] sampleBlake3 plainSerde

/-- A sync replaces a live record it never read, which is no ancestor of what
replaces it and had diverged from the tombstone on the other side. -/
theorem sync_replaces_unread_record :
    ∃ (rec old other : Record) (expected : Revision)
      (next : (StoreReq.putRaw rec (some expected)).Ans → SyncProgram Bool SyncReport),
      twoDeletions.Idle ∧
      Pool.Reaches (Fleet.anyRules fun _ => (false, true)) twoDeletions racedSync ∧
      racedSync.clients () = some (.ask (.store false (.putRaw rec (some expected))) next) ∧
      racedSync.world.getRaw false rec.key = some old ∧
      racedSync.world.getRaw true rec.key = some other ∧
      old.isTombstone = false ∧ other.isTombstone = true ∧ relate old other = .diverged ∧
      old.revision ∉ rec.ancestors ∧
      racedSync.world.seen () false rec.key ≠ some (some old) ∧
      ((racedSync.world.stores false).putRaw 0 rec (some expected)).2 =
        .ok (.committed rec.revision) :=
  ⟨_, _, _, _, _, fun _ => rfl, reaches_racedSync, rfl, rfl, rfl, rfl, rfl, by decide, by decide,
    by decide, by decide⟩

theorem racedSync_keeps_updates :
    ∃ (rec : Record) (expected : Revision)
      (next : (StoreReq.putRaw rec (some expected)).Ans → SyncProgram Bool SyncReport),
      racedSync.clients () = some (.ask (.store false (.putRaw rec (some expected))) next) ∧
      racedSync.world.KeepsUpdates (fun _ => (false, true)) () false
        (.putRaw rec (some expected)) 0 := by
  refine ⟨_, _, _, rfl, ?_⟩
  exact sync_loses_no_update (fun _ => by decide) (fun _ => rfl) reaches_racedSync rfl 0

end SameRevision

end Gonzalo.Core
