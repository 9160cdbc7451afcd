import Gonzalo.Core.SyncSafety

/-!
# Clients that edit one record

Any number of clients read the record at one key of any store of a fleet, build an update
of what they read, and put it with the revision they read as the expected one; syncs run
between any of these steps. `Edited` remembers what each client last read and, for each put
that was answered `Committed`, where it was and what the client noted about it.
-/

set_option autoImplicit false

namespace Gonzalo.Core
open Gonzalo.Lib

structure Edited (σ ι ρ τ : Type) where
  fleet : Fleet σ ι
  /-- What each client last read, and where. -/
  held : ρ → Option (σ × Record)
  /-- The committed puts, newest first. -/
  log : List (σ × τ)

namespace Edited

variable {σ ι ρ τ : Type} [DecidableEq σ] [DecidableEq ι] [DecidableEq ρ] [Blake3]

/-- The stored record at a key of a store. -/
def getRaw (w : Edited σ ι ρ τ) (name : σ) (key : RecordKey) : Option Record :=
  w.fleet.getRaw name key

/-- Client `e` reads the key. -/
def read (w : Edited σ ι ρ τ) (e : ρ) (name : σ) (key : RecordKey) : Edited σ ι ρ τ :=
  { w with held := Function.update w.held e (((w.fleet.stores name).get key).map (name, ·)) }

/-- A client puts an update of `prev` and notes it if it is committed. -/
def put (w : Edited σ ι ρ τ) (name : σ) (nowMs : Int) (prev : Record) (body : Body)
    (metadata : Meta) (note : τ) : Edited σ ι ρ τ :=
  let req : StoreReq := .put (prev.update body metadata) (some prev.revision)
  { w with
    fleet := w.fleet.call name nowMs req
    log := match ((w.fleet.stores name).put nowMs (prev.update body metadata)
        (some prev.revision)).2 with
      | .ok (.committed _) => (name, note) :: w.log
      | _ => w.log }

/-- What clients may put: a body for what they read, and their note of it. -/
abbrev Edit (σ ι ρ τ : Type) : Type := Edited σ ι ρ τ → Record → Body → τ → Prop

/-- A step of one of the clients. -/
inductive ClientStep (key : RecordKey) (edit : Edit σ ι ρ τ) (w : Edited σ ι ρ τ) :
    Edited σ ι ρ τ → Prop
  | read (e : ρ) (name : σ) : ClientStep key edit w (w.read e name key)
  | put (e : ρ) (name : σ) (nowMs : Int) (prev : Record) (body : Body) (metadata : Meta) (note : τ)
      (held : w.held e = some (name, prev)) (allowed : edit w prev body note) :
      ClientStep key edit w (w.put name nowMs prev body metadata note)

/-- The clients edit one key, each sync client `i` reconciles the stores `peers i`, and
`admitted` says which calls of a sync are served. -/
def rules [Serde] (peers : ι → σ × σ) (key : RecordKey) (edit : Edit σ ι ρ τ)
    (admitted : Edited σ ι ρ τ → ι → SyncReq σ → Prop) :
    Rules (syncInterface σ) (Edited σ ι ρ τ) ι CoreError SyncReport where
  serve w i req answer w' := ∃ fleet, Fleet.Served w.fleet i req answer fleet ∧
    w' = { w with fleet := fleet }
  starts i p := ∃ ancestry, p = syncWithAncestry (peers i).1 (peers i).2 ancestry
  ambient := ClientStep key edit
  admits c i req := admitted c.world i req

end Edited

/-- A pool over such clients. -/
abbrev EditedPool (σ ι ρ τ : Type) : Type :=
  Pool (syncInterface σ) (Edited σ ι ρ τ) ι CoreError SyncReport

namespace Edited

variable {σ ι ρ τ : Type} [DecidableEq σ] [DecidableEq ι] [DecidableEq ρ] [Blake3]

/-! ## What a step does at the key -/

/-- What a served call of sync client `i` can do at `key`: nothing but a read, or the write
of a record that its last two reads of the key justify. -/
inductive SyncEffect [Serde] (w w' : Fleet σ ι) (peers : ι → σ × σ) (i : ι) (key : RecordKey)
    (req : SyncReq σ) : Prop
  | quiet (stored : ∀ name, w'.getRaw name key = w.getRaw name key)
      (seen : ∀ j name r, w'.seen j name key = some r →
        r = w.getRaw name key ∨ w.seen j name key = some r)
  | wrote (name : σ) (rec : Record) (cap : Nat) (ra rb : Option Record)
      (asked : req = .store name (.putRaw rec ((w.getRaw name key).map Record.revision)))
      (own : rec.key = key) (seenA : w.seen i (peers i).1 key = some ra)
      (seenB : w.seen i (peers i).2 key = some rb)
      (justified : Justified (peers i).1 (peers i).2 ra rb name rec
        ((w.getRaw name key).map Record.revision))
      (stored : ∀ other, w'.getRaw other key =
        if other = name then some (rawRecord (w.getRaw name key) rec cap)
        else w.getRaw other key)
      (seen : w'.seen = w.seen)

omit [DecidableEq ι] in
theorem getRaw_call (w : Fleet σ ι) (name other : σ) (nowMs : Int) (req : StoreReq)
    (key : RecordKey) : (w.call name nowMs req).getRaw other key =
      if other = name then ((w.stores name).serve nowMs req).1.getRaw key
      else w.getRaw other key := by
  unfold Fleet.getRaw Fleet.call
  simp only [Function.update_apply]
  split <;> rfl

variable [Serde]

omit [DecidableEq ι] [DecidableEq ρ] in
theorem syncEffect_call {w : Fleet σ ι} {peers : ι → σ × σ} {i : ι} {name : σ} {nowMs : Int}
    {req : StoreReq} (guarded : syncContract.guard (w.view peers i) (.store name req))
    (key : RecordKey) :
    SyncEffect w (w.call name nowMs req) peers i key (.store name req) := by
  have unchanged : ((w.stores name).serve nowMs req).1.getRaw key = w.getRaw name key →
      SyncEffect w (w.call name nowMs req) peers i key (.store name req) := fun same =>
    .quiet (fun other => by
      rw [getRaw_call]
      split
      next here => rw [here, same]
      · rfl) fun _ _ _ seen => Or.inr seen
  cases req with
  | putRaw rec expected =>
    obtain ⟨ra, rb, seenA, seenB, justified⟩ := guarded
    rcases (w.stores name).putRaw_effect nowMs rec expected with ⟨fresh, done⟩ | ⟨same, -⟩
    · by_cases here : rec.key = key
      · subst here
        refine .wrote name rec (w.stores name).cap ra rb (fresh ▸ rfl) rfl seenA seenB
          (fresh ▸ justified) (fun other => ?_) rfl
        rw [getRaw_call]
        split
        · rw [MemStore.serve, done, MemStore.getRaw_insert]
          exact if_pos rfl
        · rfl
      · refine unchanged ?_
        rw [MemStore.serve, done, MemStore.getRaw_insert]
        exact if_neg here
    · exact unchanged (by rw [MemStore.serve, same]; rfl)
  | getRaw key' => exact unchanged rfl
  | listRaw keys => exact unchanged rfl
  | get key' => exact guarded.elim
  | list keys => exact guarded.elim
  | put record expected => exact guarded.elim
  | deleteAs key' expected author => exact guarded.elim
  | purge key' expected => exact guarded.elim

omit [DecidableEq ρ] in
theorem syncEffect_served {w w' : Fleet σ ι} {peers : ι → σ × σ} {i : ι} {req : SyncReq σ}
    {answer : req.Ans} (guarded : syncContract.guard (w.view peers i) req)
    (served : Fleet.Served w i req answer w') (key : RecordKey) :
    SyncEffect w w' peers i key req := by
  cases served with
  | read name key' =>
    refine .quiet (fun _ => rfl) fun j name' r seen => ?_
    rcases Fleet.note_seen seen with ⟨rfl, rfl, rfl⟩ | before
    · exact Or.inl rfl
    · exact Or.inr before
  | call name nowMs req other => exact syncEffect_call guarded key
  | lost name nowMs req e => exact syncEffect_call guarded key
  | failed name req e => exact .quiet (fun _ => rfl) fun _ _ _ seen => Or.inr seen
  | blob hash answer => exact .quiet (fun _ => rfl) fun _ _ _ seen => Or.inr seen

/-- `next` is what a client's update of `prev` to `body` files over `current`. -/
structure Filed (prev current next : Record) (body : Body) : Prop where
  live : current.isTombstone = false
  fresh : current.revision = prev.revision
  key : next.key = prev.key
  kind : next.kind = prev.kind
  bodyIs : next.body = body
  revision : next.revision = prev.revision.next body.bytes
  ancestors : ∃ cap, next.ancestors = foldAncestors next.revision [] (some current) cap

/-- What a put of a client does: nothing, or it files its update over the live record that
has the revision the client read, and is noted. -/
inductive PutEffect (w w' : Edited σ ι ρ τ) (name : σ) (prev : Record) (body : Body) (note : τ)
    (key : RecordKey) : Prop
  | refused (stored : ∀ other, w'.getRaw other key = w.getRaw other key) (log : w'.log = w.log)
  | committed (current next : Record) (held : w.getRaw name key = some current)
      (filed : Filed prev current next body)
      (stored : ∀ other, w'.getRaw other key =
        if other = name then some next else w.getRaw other key)
      (log : w'.log = (name, note) :: w.log)

omit [DecidableEq ι] [DecidableEq ρ] [Serde] in
theorem putEffect {w : Edited σ ι ρ τ} {name : σ} {nowMs : Int} {prev : Record} {body : Body}
    {metadata : Meta} {note : τ} {key : RecordKey} (own : prev.key = key) :
    PutEffect w (w.put name nowMs prev body metadata note) name prev body note key := by
  subst own
  rcases (w.fleet.stores name).put_effect nowMs (prev.update body metadata) (some prev.revision)
    with ⟨next, planned, done⟩ | ⟨same, refused⟩
  · obtain ⟨live, ⟨-, none, -⟩ | ⟨-, -, -, -, none, -⟩ | ⟨c, stored, alive, fresh, rfl⟩⟩ :=
      planPut_write planned
    · cases none
    · cases none
    · refine .committed c (updatedRecord c (prev.update body metadata) nowMs
        (w.fleet.stores name).cap) stored ⟨alive, (Option.some.inj fresh).symm, rfl, rfl, rfl, rfl,
          _, rfl⟩ (fun other => ?_) ?_
      · refine (getRaw_call w.fleet name other nowMs _ _).trans ?_
        rw [MemStore.serve, done]
        refine if_congr Iff.rfl ?_ rfl
        rw [MemStore.getRaw_insert]
        exact if_pos rfl
      · simp only [put, done]
  · refine .refused (fun other => ?_) ?_
    · refine (getRaw_call w.fleet name other nowMs _ _).trans ?_
      rw [MemStore.serve, same]
      split
      next here =>
        rw [here]
        rfl
      · rfl
    · simp only [put]

/-! ## Records that all fit -/

/-- Every replica holds a record that fits the log, and so is everything that was last read. -/
structure Holds (fits : List (σ × τ) → Record → Prop) (key : RecordKey) (w : Edited σ ι ρ τ) :
    Prop where
  stored : ∀ name, ∃ r, w.getRaw name key = some r ∧ fits w.log r
  seen : ∀ i name found, w.fleet.seen i name key = some found → ∃ r, found = some r ∧ fits w.log r
  held : ∀ e name r, w.held e = some (name, r) → r.key = key ∧ fits w.log r

/-- What a step does at the key: nothing, or one replica's record becomes another that it
may become, by a sync or by a client's put. -/
inductive Moves (edit : Edit σ ι ρ τ) (fits : List (σ × τ) → Record → Prop)
    (may : Record → Record → Prop) (key : RecordKey) (w w' : Edited σ ι ρ τ) : Prop
  | same (stored : ∀ name, w'.getRaw name key = w.getRaw name key) (log : w'.log = w.log)
  | synced (name : σ) (old new : Record) (held : w.getRaw name key = some old)
      (allowed : may old new)
      (stored : ∀ other, w'.getRaw other key =
        if other = name then some new else w.getRaw other key) (log : w'.log = w.log)
  | edited (name : σ) (old new prev : Record) (body : Body) (note : τ)
      (held : w.getRaw name key = some old) (allowed : may old new)
      (known : fits w.log prev) (permitted : edit w prev body note) (filed : Filed prev old new body)
      (stored : ∀ other, w'.getRaw other key =
        if other = name then some new else w.getRaw other key) (log : w'.log = (name, note) :: w.log)

variable {edit : Edit σ ι ρ τ} {fits : List (σ × τ) → Record → Prop}
  {may : Record → Record → Prop} {key : RecordKey}

omit [DecidableEq ι] [DecidableEq ρ] [Blake3] [Serde] in
theorem holds_stored {w w' : Edited σ ι ρ τ} {name : σ} {new : Record}
    (holds : ∀ name, ∃ r, w.getRaw name key = some r ∧ fits w'.log r) (new_fits : fits w'.log new)
    (stored : ∀ other, w'.getRaw other key =
      if other = name then some new else w.getRaw other key) (other : σ) :
    ∃ r, w'.getRaw other key = some r ∧ fits w'.log r := by
  rw [stored]
  split
  · exact ⟨new, rfl, new_fits⟩
  · exact holds other

omit [DecidableEq ρ] in
/-- A call of a sync, if every write that its last reads justify files a record that fits. -/
theorem Holds.served {w : Edited σ ι ρ τ} {fleet : Fleet σ ι} {peers : ι → σ × σ} {i : ι}
    {req : SyncReq σ} {answer : req.Ans} (holds : Holds fits key w)
    (guarded : syncContract.guard (w.fleet.view peers i) req)
    (served : Fleet.Served w.fleet i req answer fleet)
    (writes : ∀ name rec recA recB current cap expected,
      req = .store name (.putRaw rec expected) → rec.key = key →
      w.fleet.seen i (peers i).1 key = some (some recA) →
      w.fleet.seen i (peers i).2 key = some (some recB) →
      fits w.log recA → fits w.log recB → fits w.log current →
      Justified (peers i).1 (peers i).2 (some recA) (some recB) name rec (some current.revision) →
      fits w.log (rawRecord (some current) rec cap) ∧
        may current (rawRecord (some current) rec cap)) :
    Holds fits key { w with fleet := fleet } ∧ Moves edit fits may key w { w with fleet := fleet } := by
  cases syncEffect_served guarded served key with
  | quiet stored seen =>
    refine ⟨⟨fun name => ?_, fun j name found noted => ?_, holds.held⟩, .same stored rfl⟩
    · rw [getRaw, stored]
      exact holds.stored name
    · rcases seen j name found noted with rfl | before
      · exact holds.stored name
      · exact holds.seen j name found before
  | wrote name rec cap ra rb asked own seenA seenB justified stored seen =>
    obtain ⟨recA, rfl, fitsA⟩ := holds.seen _ _ _ seenA
    obtain ⟨recB, rfl, fitsB⟩ := holds.seen _ _ _ seenB
    obtain ⟨current, held, fitsC⟩ := holds.stored name
    change w.fleet.getRaw name key = some current at held
    rw [held] at justified stored
    obtain ⟨new_fits, allowed⟩ := writes name rec recA recB current cap _ asked own seenA seenB
      fitsA fitsB fitsC justified
    refine ⟨⟨holds_stored holds.stored new_fits stored, fun j name' found noted => ?_, holds.held⟩,
      .synced name current _ held allowed stored rfl⟩
    exact holds.seen j name' found (seen ▸ noted)

omit [DecidableEq ι] [Serde] in
/-- A step of a client, if every update it may file fits. -/
theorem Holds.client {w w' : Edited σ ι ρ τ} (holds : Holds fits key w)
    (step : ClientStep key edit w w')
    (mono : ∀ entry r, fits w.log r → fits (entry :: w.log) r)
    (edits : ∀ name prev body note current next, edit w prev body note → fits w.log prev →
      fits w.log current → Filed prev current next body →
      fits ((name, note) :: w.log) next ∧ may current next) :
    Holds fits key w' ∧ Moves edit fits may key w w' := by
  cases step with
  | read e name =>
    refine ⟨⟨holds.stored, holds.seen, fun e' name' r held => ?_⟩, .same (fun _ => rfl) rfl⟩
    simp only [read, Function.update_apply] at held
    split at held
    · obtain ⟨r', got, same⟩ := Option.map_eq_some_iff.mp held
      cases same
      have stored := (MemStore.get_eq_some.mp got).1
      obtain ⟨r'', stored', fits⟩ := holds.stored name
      cases stored.symm.trans stored'
      exact ⟨MemStore.key_of_getRaw stored, fits⟩
    · exact holds.held e' name' r held
  | put e name nowMs prev body metadata note held allowed =>
    obtain ⟨own, prev_fits⟩ := holds.held e name prev held
    cases @putEffect _ _ _ _ _ _ w name nowMs prev body metadata note _ own with
    | refused stored log =>
      refine ⟨⟨fun other => ?_, fun j other found noted => ?_, fun e' other r held => ?_⟩,
        .same stored log⟩
      · rw [stored, log]
        exact holds.stored other
      · rw [log]
        exact holds.seen j other found noted
      · rw [log]
        exact holds.held e' other r held
    | committed current next stored filed now log =>
      obtain ⟨current', stored', current_fits⟩ := holds.stored name
      cases stored.symm.trans stored'
      obtain ⟨new_fits, moved⟩ := edits name prev body note current next allowed prev_fits
        current_fits filed
      have later : ∀ {r}, fits w.log r →
          fits (w.put name nowMs prev body metadata note).log r := fun {r} held =>
        log ▸ mono (name, note) r held
      refine ⟨⟨holds_stored (fun other => ?_) (log ▸ new_fits) now, fun j other found noted => ?_,
        fun e' other r held => ?_⟩,
        .edited name current next prev body note stored moved prev_fits allowed filed now
          log⟩
      · obtain ⟨r, at_, held⟩ := holds.stored other
        exact ⟨r, at_, later held⟩
      · obtain ⟨r, is, held⟩ := holds.seen j other found noted
        exact ⟨r, is, later held⟩
      · obtain ⟨own', held'⟩ := holds.held e' other r held
        exact ⟨own', later held'⟩

/-! ## Invariants of a run -/

/-- Every sync is at a point that its contract covers. -/
def Covered (peers : ι → σ × σ) (c : EditedPool σ ι ρ τ) : Prop :=
  ∀ i p, c.clients i = some p →
    Wp syncContract (fun v (_ : Except CoreError SyncReport) => v.Pair (peers i).1 (peers i).2)
      (c.world.fleet.view peers i) p

omit [DecidableEq ι] [DecidableEq ρ] in
theorem covered_of_idle {peers : ι → σ × σ} {c : EditedPool σ ι ρ τ}
    (idle : ∀ i, c.clients i = none) : Covered peers c := fun i p at_p => by
  simp [idle i] at at_p

/-- A property that every admitted call of a covered sync and every step of a client keeps
holds in every state of every run. -/
theorem invariant {peers : ι → σ × σ} {key : RecordKey} {edit : Edit σ ι ρ τ}
    {admitted : Edited σ ι ρ τ → ι → SyncReq σ → Prop} {inv : Edited σ ι ρ τ → Prop}
    (distinct : ∀ i, (peers i).1 ≠ (peers i).2)
    (served : ∀ w fleet i req answer, inv w → admitted w i req →
      syncContract.guard (w.fleet.view peers i) req → Fleet.Served w.fleet i req answer fleet →
      inv { w with fleet := fleet })
    (client : ∀ w w', inv w → ClientStep key edit w w' → inv w')
    {c₀ c : EditedPool σ ι ρ τ} (covered : Covered peers c₀) (start : inv c₀.world)
    (run : Pool.Reaches (rules peers key edit admitted) c₀ c) : inv c.world ∧ Covered peers c := by
  have logic : Pool.Logic (rules peers key edit admitted) syncContract
      (fun i v (_ : Except CoreError SyncReport) => v.Pair (peers i).1 (peers i).2)
      fun c views => inv c.world ∧ ∀ i, views i = c.world.fleet.view peers i := by
    refine ⟨?_, ?_, ?_⟩
    · rintro c views i _ ⟨held, known⟩ ⟨ancestry, rfl⟩
      refine ⟨c.world.fleet.view peers i, wp_syncWithAncestry ⟨rfl, rfl, distinct i⟩, held,
        fun j => ?_⟩
      by_cases same : j = i
      · subst same
        rw [Function.update_self]
        rfl
      · rw [Function.update_of_ne same]
        exact known j
    · rintro c views i req next answer world' ⟨held, known⟩ - admitted' guarded
        ⟨fleet, answered, rfl⟩
      rw [known i] at guarded ⊢
      refine ⟨fleet.view peers i, Fleet.served_turn answered, fun _ => ?_⟩
      refine ⟨served _ _ i req answer held admitted' guarded answered, fun j => ?_⟩
      by_cases same : j = i
      · subst same
        rw [Function.update_self]
        rfl
      · rw [Function.update_of_ne same, known j]
        simp [Fleet.view, Fleet.served_seen_ne answered same]
    · rintro c views world' ⟨held, known⟩ moved
      refine ⟨client _ _ held moved, fun i => ?_⟩
      rw [known i]
      cases moved <;> rfl
  obtain ⟨views, ⟨held, known⟩, covered⟩ := Pool.wp_invariant logic run
    ⟨_, ⟨start, fun i => rfl⟩, covered⟩
  exact ⟨held, fun i p at_p => known i ▸ covered i p at_p⟩

end Edited

end Gonzalo.Core
