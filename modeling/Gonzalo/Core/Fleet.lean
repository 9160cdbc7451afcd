import Gonzalo.Core.Sync
import Gonzalo.Lib.Pool

/-!
# A fleet of stores

Any number of stores, any number of sync clients that each reconcile one pair of
them, and other clients whose calls land between any two calls of a sync. A call
of a sync may fail, before or after it took effect.

Two history variables record what the theorems speak about and nothing reads:
what each sync client last read where, and which tombstones consumers created over.
-/

set_option autoImplicit false

namespace Gonzalo.Core
open Gonzalo.Lib

structure Fleet (σ ι : Type) where
  stores : σ → MemStore
  /-- What each sync client last read at a key of a store. -/
  seen : ι → σ → RecordKey → Option (Option Record)
  /-- The counters of the tombstones of a key that a consumer `put` replaced. -/
  recreated : RecordKey → UInt64 → Prop

namespace Fleet

variable {σ ι : Type}

/-- The stored record at a key of a store. -/
def getRaw (w : Fleet σ ι) (name : σ) (key : RecordKey) : Option Record :=
  (w.stores name).getRaw key

/-- Stores that hold nothing, with the given caps. -/
def fresh (cap : σ → Nat) (cap_pos : ∀ name, 0 < cap name) : Fleet σ ι where
  stores := fun name => .empty (cap name) (cap_pos name)
  seen := fun _ _ _ => none
  recreated := fun _ _ => False

variable [DecidableEq σ] [Blake3]

/-- The fleet after a call of one of its stores. -/
def call (w : Fleet σ ι) (name : σ) (nowMs : Int) (req : StoreReq) : Fleet σ ι :=
  { w with stores := Function.update w.stores name ((w.stores name).serve nowMs req).1 }

/-- A consumer `put` that commits over a tombstone with counter `n`. -/
def Recreates (s : MemStore) (nowMs : Int) (req : StoreReq) (key : RecordKey) (n : UInt64) : Prop :=
  ∃ record expected t rev, req = .put record expected ∧ record.key = key ∧
    s.getRaw key = some t ∧ t.isTombstone = true ∧ t.revision.counter = n ∧
    (s.put nowMs record expected).2 = .ok (.committed rev)

omit [DecidableEq σ] in
theorem not_recreates {s : MemStore} {nowMs : Int} {req : StoreReq} {key : RecordKey} {n : UInt64}
    (live : (s.getRaw key).all (fun t => !t.isTombstone) = true) :
    ¬ Recreates s nowMs req key n := by
  rintro ⟨record, expected, t, rev, rfl, rfl, held, dead, -, -⟩
  simp [held, dead] at live

/-- The fleet after a call of a client that is not a sync. -/
def consumerCall (w : Fleet σ ι) (name : σ) (nowMs : Int) (req : StoreReq) : Fleet σ ι :=
  { w.call name nowMs req with
    recreated := fun key n => w.recreated key n ∨ Recreates (w.stores name) nowMs req key n }

variable [DecidableEq ι]

/-- Remember what client `i` read. -/
def note (w : Fleet σ ι) (i : ι) (name : σ) (key : RecordKey) (found : Option Record) :
    Fleet σ ι :=
  let reads := Function.update (w.seen i name) key (some found)
  { w with seen := Function.update w.seen i (Function.update (w.seen i) name reads) }

omit [Blake3] in
theorem note_seen {w : Fleet σ ι} {i j : ι} {name name' : σ} {key key' : RecordKey}
    {found r : Option Record} (seen : (w.note i name key found).seen j name' key' = some r) :
    name' = name ∧ key' = key ∧ r = found ∨ w.seen j name' key' = some r := by
  simp only [note, Function.update_apply] at seen
  split at seen
  next client =>
    subst client
    rw [Function.update_apply] at seen
    split at seen
    next store =>
      subst store
      rw [Function.update_apply] at seen
      split at seen
      next here =>
        cases seen
        exact Or.inl ⟨rfl, here, rfl⟩
      · exact Or.inr seen
    · exact Or.inr seen
  · exact Or.inr seen

/-- How a request of sync client `i` may be answered. -/
inductive Served (w : Fleet σ ι) (i : ι) : (req : SyncReq σ) → req.Ans → Fleet σ ι → Prop
  | read (name : σ) (key : RecordKey) :
      Served w i (.store name (.getRaw key)) (.ok (w.getRaw name key))
        (w.note i name key (w.getRaw name key))
  | call (name : σ) (nowMs : Int) (req : StoreReq) (other : ∀ key, req ≠ .getRaw key) :
      Served w i (.store name req) ((w.stores name).serve nowMs req).2 (w.call name nowMs req)
  | failed (name : σ) (req : StoreReq) (e : CoreError) :
      Served w i (.store name req) (req.failed e) w
  | lost (name : σ) (nowMs : Int) (req : StoreReq) (e : CoreError) :
      Served w i (.store name req) (req.failed e) (w.call name nowMs req)
  | blob (hash : ContentHash) (answer : Except CoreError (Option Bytes)) :
      Served w i (.getBlob hash) answer w

/-- Every call succeeds, at time `nowMs`, and no blob is retained. -/
def serveAt (i : ι) (nowMs : Int) (w : Fleet σ ι) : (req : SyncReq σ) → Fleet σ ι × req.Ans
  | .store name (.getRaw key) => (w.note i name key (w.getRaw name key), .ok (w.getRaw name key))
  | .store name req => (w.call name nowMs req, ((w.stores name).serve nowMs req).2)
  | .getBlob _ => (w, .ok none)

theorem serveAt_served (i : ι) (nowMs : Int) (w : Fleet σ ι) (req : SyncReq σ) :
    Served w i req (serveAt i nowMs w req).2 (serveAt i nowMs w req).1 := by
  cases req with
  | getBlob hash => exact .blob hash _
  | store name req =>
    cases req with
    | getRaw key => exact .read name key
    | _ => exact .call name nowMs _ (by simp)

/-- The fleet's rules. Sync client `i` reconciles the stores `peers i`; a call of
another client is one that `client` allows where it lands, and `admitted` says in
which states steps are taken at all. -/
def rules [Serde] (peers : ι → σ × σ) (client : MemStore → StoreReq → Prop)
    (admitted : Fleet σ ι → Prop) :
    Rules (syncInterface σ) (Fleet σ ι) ι CoreError SyncReport where
  serve := Served
  starts i p := ∃ ancestry, p = syncWithAncestry (peers i).1 (peers i).2 ancestry
  ambient w w' := admitted w ∧
    ∃ name nowMs req, client (w.stores name) req ∧ w' = w.consumerCall name nowMs req
  admits c _ _ := admitted c.world

/-- The rules under which other clients may do anything. -/
abbrev anyRules [Serde] (peers : ι → σ × σ) :
    Rules (syncInterface σ) (Fleet σ ι) ι CoreError SyncReport :=
  rules peers (fun _ _ => True) fun _ => True

end Fleet

/-- A pool over a fleet. -/
abbrev FleetPool (σ ι : Type) : Type := Pool (syncInterface σ) (Fleet σ ι) ι CoreError SyncReport

/-- No sync has been started. -/
def FleetPool.Idle {σ ι : Type} (c : FleetPool σ ι) : Prop := ∀ i, c.clients i = none

namespace FleetPool

variable {σ ι : Type} [DecidableEq σ] [DecidableEq ι] [Blake3] [Serde]

/-- Other clients make these calls, one after the other. -/
def consumerCalls (c : FleetPool σ ι) (calls : List (σ × StoreReq)) : FleetPool σ ι :=
  { c with world := calls.foldl (fun w call => w.consumerCall call.1 0 call.2) c.world }

theorem step_consumerCall {peers : ι → σ × σ} {client : MemStore → StoreReq → Prop}
    {admitted : Fleet σ ι → Prop} {c : FleetPool σ ι} {name : σ} {req : StoreReq}
    (now : admitted c.world) (allowed : client (c.world.stores name) req) :
    Pool.Step (Fleet.rules peers client admitted) c (c.consumerCalls [(name, req)]) :=
  .ambient _ ⟨now, name, 0, req, allowed, rfl⟩

theorem reaches_consumerCalls {peers : ι → σ × σ} {client : StoreReq → Prop}
    (calls : List (σ × StoreReq)) (c : FleetPool σ ι) (allowed : ∀ call ∈ calls, client call.2) :
    Pool.Reaches (Fleet.rules peers (fun _ => client) fun _ => True) c (c.consumerCalls calls) := by
  induction calls generalizing c with
  | nil => exact .refl
  | cons call rest ih =>
    have one : Pool.Step (Fleet.rules peers (fun _ => client) fun _ => True) c
        (c.consumerCalls [call]) := step_consumerCall trivial (allowed call List.mem_cons_self)
    exact (Relation.ReflTransGen.single one).trans
      (ih _ fun later member => allowed later (List.mem_cons_of_mem _ member))

/-- Start a sync on client `i` and serve its first `n` calls. -/
def syncSteps (c : FleetPool σ ι) (peers : ι → σ × σ) (i : ι) (nowMs : Int) (n : Nat) :
    FleetPool σ ι :=
  let left := (sync (peers i).1 (peers i).2).steps (Fleet.serveAt i nowMs) n c.world
  { c with world := left.1 }.setClient i left.2

theorem reaches_syncSteps_admitted {peers : ι → σ × σ} {client : MemStore → StoreReq → Prop}
    {admitted : Fleet σ ι → Prop} (c : FleetPool σ ι) (i : ι) (nowMs : Int) (n : Nat)
    (now : ∀ k < n, admitted (c.syncSteps peers i nowMs k).world) :
    Pool.Reaches (Fleet.rules peers client admitted) c (c.syncSteps peers i nowMs n) := by
  have started : Pool.Step (Fleet.rules peers client admitted) c
      (c.setClient i (sync (peers i).1 (peers i).2)) := .start i _ ⟨false, rfl⟩
  have served := @Pool.reaches_steps_admitted _ _ _ _ _ _ (Fleet.rules peers client admitted) i
    (Fleet.serveAt i nowMs) (Fleet.serveAt_served i nowMs) n _ _
    (Pool.setClient_self c i (sync (peers i).1 (peers i).2)) fun k below _ _ => now k below
  refine (Relation.ReflTransGen.single started).trans ?_
  simpa [syncSteps, Pool.setClient] using served

theorem reaches_syncSteps {peers : ι → σ × σ} (client : MemStore → StoreReq → Prop)
    (c : FleetPool σ ι) (i : ι) (nowMs : Int) (n : Nat) :
    Pool.Reaches (Fleet.rules peers client fun _ => True) c (c.syncSteps peers i nowMs n) :=
  reaches_syncSteps_admitted c i nowMs n fun _ _ => trivial

end FleetPool

end Gonzalo.Core
