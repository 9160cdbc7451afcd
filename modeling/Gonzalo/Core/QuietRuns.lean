import Gonzalo.Core.Editors
import Gonzalo.Core.SyncOutcome

/-!
# Runs in which one client moves at a time

A sync that nobody disturbs is a run the pool can take, so what `exec` says of the outcomes
of its two stores holds of a pool that it reaches. A client that reads and puts at once
commits.
-/

set_option autoImplicit false

namespace Gonzalo.Core.Edited
open Gonzalo.Lib

variable {σ ι ρ τ : Type} [DecidableEq σ] [DecidableEq ι] [Blake3]

/-- Every call succeeds, at time `nowMs`, and no blob is retained. -/
def serveAt (i : ι) (nowMs : Int) (w : Edited σ ι ρ τ) (req : SyncReq σ) :
    Edited σ ι ρ τ × req.Ans :=
  ({ w with fleet := (Fleet.serveAt i nowMs w.fleet req).1 }, (Fleet.serveAt i nowMs w.fleet req).2)

/-- The fleet answers as its stores alone do. -/
theorem serveAt_stores (i : ι) (nowMs : Int) (w : Edited σ ι ρ τ) (req : SyncReq σ) :
    (serveAt i nowMs w req).1.fleet.stores =
        (serveStores (fun _ => .ok none) nowMs w.fleet.stores req).1 ∧
      (serveAt i nowMs w req).2 =
        (serveStores (fun _ => .ok none) nowMs w.fleet.stores req).2 := by
  cases req with
  | getBlob hash => exact ⟨rfl, rfl⟩
  | store name req =>
    cases req with
    | getRaw key => exact ⟨(Function.update_eq_self name w.fleet.stores).symm, rfl⟩
    | _ => exact ⟨rfl, rfl⟩

theorem exec_serveAt {α : Type} (i : ι) (nowMs : Int) (p : SyncProgram σ α)
    (w : Edited σ ι ρ τ) :
    (p.exec (serveAt i nowMs) w).1.fleet.stores =
        (p.exec (serveStores (fun _ => .ok none) nowMs) w.fleet.stores).1 ∧
      (p.exec (serveAt i nowMs) w).2 =
        (p.exec (serveStores (fun _ => .ok none) nowMs) w.fleet.stores).2 := by
  induction p generalizing w with
  | done value => exact ⟨rfl, rfl⟩
  | fail error => exact ⟨rfl, rfl⟩
  | ask req next ih =>
    obtain ⟨stores, answer⟩ := serveAt_stores i nowMs w req
    have rest := ih (serveAt i nowMs w req).2 (serveAt i nowMs w req).1
    have same : (next (serveAt i nowMs w req).2).exec (serveStores (fun _ => .ok none) nowMs)
          (serveAt i nowMs w req).1.fleet.stores =
        (Program.ask req next).exec (serveStores (fun _ => .ok none) nowMs) w.fleet.stores := by
      rw [stores, answer]
      rfl
    rw [same] at rest
    exact rest

variable [DecidableEq ρ] [Serde] {peers : ι → σ × σ} {edit : Edit σ ι ρ τ}

/-- The sync that client `i` has started runs alone, to its end. -/
theorem quiet_started (i : ι) (distinct : (peers i).1 ≠ (peers i).2) (c : EditedPool σ ι ρ τ)
    (key : RecordKey) :
    ∃ c' report, Pool.Reaches (rules peers key edit fun _ _ _ => True)
        (c.setClient i (syncWithAncestry (peers i).1 (peers i).2 false)) c' ∧
      c'.clients i = some (.done report) ∧
      ReportedAt key report
        (outcomeAt (fun _ => .ok none) false (peers i).1 (peers i).2 c.world.fleet.stores key).arm ∧
      Alike key c'.world.fleet.stores
        ((outcomeAt (fun _ => .ok none) false (peers i).1 (peers i).2 c.world.fleet.stores
          key).stores (peers i).1 (peers i).2 c.world.fleet.stores) := by
  obtain ⟨stores, report, ran, reported, alike⟩ := exec_sync_at distinct (fun _ => .ok none) false
    0 c.world.fleet.stores key
  have run := @Pool.reaches_exec _ _ _ _ _ _ (rules peers key edit fun _ _ _ => True) i
    (serveAt i 0) (fun w req => ⟨_, Fleet.serveAt_served i 0 w.fleet req, rfl⟩)
    (fun _ _ => trivial) _ _
    (Pool.setClient_self c i (syncWithAncestry (peers i).1 (peers i).2 false))
  obtain ⟨after, answer⟩ := exec_serveAt i 0
    (syncWithAncestry (peers i).1 (peers i).2 false) c.world
  rw [ran] at after answer
  refine ⟨_, report, run, ?_, reported, ?_⟩
  · rw [Pool.setClient_self, Pool.setClient_world, answer]
    rfl
  · rw [Pool.setClient_world, Pool.setClient_world, after]
    exact alike

/-- The sync of client `i` runs alone, from its start to its end. -/
theorem quiet_sync (i : ι) (distinct : (peers i).1 ≠ (peers i).2) (c : EditedPool σ ι ρ τ)
    (key : RecordKey) :
    ∃ c' report, Pool.Reaches (rules peers key edit fun _ _ _ => True) c c' ∧
      c'.clients i = some (.done report) ∧
      ReportedAt key report
        (outcomeAt (fun _ => .ok none) false (peers i).1 (peers i).2 c.world.fleet.stores key).arm ∧
      Alike key c'.world.fleet.stores
        ((outcomeAt (fun _ => .ok none) false (peers i).1 (peers i).2 c.world.fleet.stores
          key).stores (peers i).1 (peers i).2 c.world.fleet.stores) := by
  have started : Pool.Step (rules peers key edit fun _ _ _ => True) c
      (c.setClient i (syncWithAncestry (peers i).1 (peers i).2 false)) := .start i _ ⟨false, rfl⟩
  obtain ⟨c', report, run, ended⟩ := quiet_started i distinct c key
  exact ⟨c', report, .head started run, ended⟩

/-- Client `e` reads the key and puts its update before anyone else moves. -/
theorem quiet_edit {c : EditedPool σ ι ρ τ} {name : σ} {key : RecordKey} {prev : Record}
    {body : Body} {note : τ} (e : ρ) (stored : c.world.getRaw name key = some prev)
    (live : prev.isTombstone = false) (allowed : ∀ w, edit w prev body note) :
    ∃ c', Pool.Reaches (rules peers key edit fun _ _ _ => True) c c' ∧
      (∀ other, c'.world.getRaw other key = if other = name then
        some (updatedRecord prev (prev.update body prev.metadata) 0 (c.world.fleet.stores name).cap)
        else c.world.getRaw other key) ∧
      (∀ other, (c'.world.fleet.stores other).cap = (c.world.fleet.stores other).cap) ∧
      c'.world.log = (name, note) :: c.world.log := by
  have got : (c.world.read e name key).held e = some (name, prev) := by
    simp only [read, Function.update_self, MemStore.get_eq_some.mpr ⟨stored, live⟩, Option.map_some]
  have first : Pool.Step (rules peers key edit fun _ _ _ => True) c
      { c with world := c.world.read e name key } := .ambient _ (.read e name)
  have second : Pool.Step (rules peers key edit fun _ _ _ => True)
      { c with world := c.world.read e name key }
      { c with world := (c.world.read e name key).put name 0 prev body prev.metadata note } :=
    .ambient _ (.put e name 0 prev body prev.metadata note got (allowed _))
  have commits := MemStore.put_update_commits stored live 0 body prev.metadata
  have own := MemStore.key_of_getRaw stored
  have filed : ∀ other, ((c.world.read e name key).put name 0 prev body prev.metadata
      note).fleet.stores other = if other = name then (c.world.fleet.stores name).insert
        (updatedRecord prev (prev.update body prev.metadata) 0 (c.world.fleet.stores name).cap)
      else c.world.fleet.stores other := fun other => by
    simp only [put, read, Fleet.call, MemStore.serve, commits, Function.update_apply]
  refine ⟨_, (Relation.ReflTransGen.single first).tail second, fun other => ?_, fun other => ?_, ?_⟩
  · rw [getRaw, Fleet.getRaw, filed]
    split
    · rw [MemStore.getRaw_insert]
      exact if_pos own
    · rfl
  · rw [filed]
    split
    next here => rw [here, MemStore.cap_insert]
    · rfl
  · simp only [put, read, commits]

end Gonzalo.Core.Edited
