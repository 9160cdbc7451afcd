import Gonzalo.Core.PurgeRace

/-!
# Resetting a namespace

`gonzalo-core/src/reset.rs`. A reset deletes the listed keys one by one, each at the
revision it has just read, through the consumer surface alone: whatever that surface
leaves alone a reset leaves alone, also when calls fail in between.
-/

set_option autoImplicit false

namespace Gonzalo.Core
open Gonzalo.Lib

/-- What a reset run did. -/
structure ResetReport where
  deleted : List RecordKey := []
  conflicts : List RecordKey := []
  deriving DecidableEq

namespace StoreProgram

def list (keys : KeyPrefix) : StoreProgram (List RecordKey) := call (.list keys) >>= .ofExcept

def get (key : RecordKey) : StoreProgram (Option Record) := call (.get key) >>= .ofExcept

def deleteAs (key : RecordKey) (expected : Option Revision) (author : Option Identity) :
    StoreProgram DeleteResult := call (.deleteAs key expected author) >>= .ofExcept

end StoreProgram

/-- The body of the loop of `reset_as`. -/
def resetKey (keys : KeyPrefix) (author : Option Identity) (report : ResetReport)
    (key : RecordKey) : StoreProgram ResetReport :=
  if !keys.matches key then pure report
  else do
    match ← StoreProgram.get key with
    | none => pure report
    | some current =>
      match ← StoreProgram.deleteAs key (some current.revision) author with
      | .deleted => pure { report with deleted := report.deleted ++ [key] }
      | .conflict _ => pure { report with conflicts := report.conflicts ++ [key] }

/-- `reset_as`. -/
def resetAs (keys : KeyPrefix) (author : Option Identity) : StoreProgram ResetReport :=
  if keys.ns.isNone then .fail (.backend "reset requires a namespace")
  else do
    let listed ← StoreProgram.list keys
    listed.foldlM (resetKey keys author) {}

/-- `reset`. -/
def reset (keys : KeyPrefix) : StoreProgram ResetReport := resetAs keys none

/-! ## The consumer surface -/

/-- The calls a consumer makes: neither the raw ones nor a purge. -/
def StoreReq.isConsumer : StoreReq → Bool
  | get _ | list _ | put _ _ | deleteAs _ _ _ => true
  | _ => false

/-- Only consumer calls, whatever they answer. -/
def consumerOnly : Contract storeInterface Unit where
  guard _ req := req.isConsumer = true
  turn _ _ _ _ := True

section Wp

variable {keys : KeyPrefix} {author : Option Identity}

theorem wp_resetKey (report : ResetReport) (key : RecordKey) :
    Wp consumerOnly (fun _ _ => True) () (resetKey keys author report key) := by
  unfold resetKey
  split
  · exact trivial
  refine ⟨rfl, fun answer _ _ => ?_⟩
  rcases answer with e | current | current
  · exact trivial
  · exact trivial
  · refine ⟨rfl, fun answer _ _ => ?_⟩
    rcases answer with e | deleted | conflict <;> exact trivial

theorem wp_resetAs : Wp consumerOnly (fun _ _ => True) () (resetAs keys author) := by
  unfold resetAs
  split
  · exact trivial
  refine ⟨rfl, fun answer _ _ => ?_⟩
  cases answer with
  | error e => exact trivial
  | ok listed =>
    refine Wp.foldlM (fun _ _ _ => True) (fun key rest _ report _ => ?_) (fun _ _ _ => trivial)
      trivial
    refine (wp_resetKey report key).mono fun _ result _ => ?_
    cases result <;> exact trivial

end Wp

namespace MemStore

variable [Blake3]

/-- How a store may answer a call: it may fail, before or after its effect. -/
inductive Served (s : MemStore) : (req : StoreReq) → req.Ans → MemStore → Prop
  | call (nowMs : Int) (req : StoreReq) : Served s req (s.serve nowMs req).2 (s.serve nowMs req).1
  | failed (req : StoreReq) (e : CoreError) : Served s req (req.failed e) s
  | lost (nowMs : Int) (req : StoreReq) (e : CoreError) :
      Served s req (req.failed e) (s.serve nowMs req).1

/-- What every consumer call keeps, a reset keeps. -/
theorem reset_keeps {keys : KeyPrefix} {author : Option Identity} {s s' : MemStore}
    {result : Except CoreError ResetReport} {Inv : MemStore → Prop}
    (keeps : ∀ s nowMs req, req.isConsumer = true → Inv s → Inv (s.serve nowMs req).1)
    (run : Program.Runs Served s (resetAs keys author) s' result) (start : Inv s) : Inv s' := by
  have served : ∀ (s : MemStore) (v : Unit) (req : StoreReq) (answer : req.Ans) (s' : MemStore),
      Inv s → consumerOnly.guard v req → Served s req answer s' →
      ∃ v', consumerOnly.turn v req answer v' ∧ Inv s' := by
    intro s v req answer s' held consumer served
    refine ⟨(), trivial, ?_⟩
    cases served with
    | call nowMs => exact keeps s nowMs req consumer held
    | failed e => exact held
    | lost nowMs e => exact keeps s nowMs req consumer held
  obtain ⟨_, ended, -⟩ := run.sound (fun s _ => Inv s) served start wp_resetAs
  exact ended

end MemStore

end Gonzalo.Core
