import Gonzalo.Vector.Commit

/-!
# A handle from its opening on

`open_with_shards` of `gonzalo-vector/src/record_index.rs`, and the life of a handle: it is
opened, and then makes its writes one at a time, as `commit_lock` has it. A session tells
what it is about to write and what came of it; nothing hangs on the answer.
-/

set_option autoImplicit false

namespace Gonzalo.Vector
open Gonzalo.Core Gonzalo.Lib

/-! ## Opening -/

section Chunks

variable {α : Type}

theorem flatten_toChunksGo (n : Nat) (xs : List α) (chunk : Array α) (chunks : Array (List α)) :
    (List.toChunks.go n xs chunk chunks).flatten =
      chunks.toList.flatten ++ (chunk.toList ++ xs) := by
  induction xs generalizing chunk chunks with
  | nil => simp [List.toChunks.go]
  | cons x rest ih =>
    unfold List.toChunks.go
    split
    · simp [ih]
    · simp [ih]

/-- Chunks put together again. -/
theorem flatten_toChunks (n : Nat) (xs : List α) : (xs.toChunks n).flatten = xs := by
  cases xs with
  | nil => rfl
  | cons x rest =>
    cases n with
    | zero => simp [List.toChunks]
    | succ n => simp [List.toChunks, flatten_toChunksGo]

end Chunks

variable [Blake3] [Serde] {key : RecordKey} {v : IndexView} {s : RecordVectorIndex}

/-- Memory holds the shards in `done`, and nothing else. -/
def Loaded (content : Vectors) (done : List UInt16) (s s' : RecordVectorIndex) : Prop :=
  ∃ inner, s' = { s with inner := inner } ∧ ∀ k : RecordKey, inner[k]? =
    if shardOf k s.shards ∈ done then content[k]? else none

omit [Serde] in
theorem Loaded.congr {content : Vectors} {done done' : List UInt16} {s s' : RecordVectorIndex}
    (loaded : Loaded content done s s') (same : ∀ id, id ∈ done ↔ id ∈ done') :
    Loaded content done' s s' := by
  obtain ⟨inner, rfl, lookup⟩ := loaded
  refine ⟨inner, rfl, fun k => ?_⟩
  rw [lookup]
  simp only [same]

omit [Blake3] [Serde] in
/-- Calls of the store, and what the owner of a handle can tell about it. -/
inductive SessionReq where
  | backend (req : BackendReq)
  | opened (handle : RecordVectorIndex)
  | begins (op : VectorOp)
  | returned (op : VectorOp) (handle : RecordVectorIndex) (result : Except CoreError Unit)

omit [Blake3] [Serde] in
def SessionReq.Ans : SessionReq → Type
  | backend req => req.Ans
  | opened _ => Unit
  | begins _ => Unit
  | returned _ _ _ => Unit

def sessionInterface : Interface := ⟨SessionReq, SessionReq.Ans⟩

abbrev SessionProgram (α : Type) : Type := Program sessionInterface CoreError α

/-- The calls of the store among the requests of a session. -/
def storeCalls : Interface.Part backendInterface sessionInterface where
  req := .backend
  ans _ answer := answer

/-- Tell something. -/
def tell (req : SessionReq) : SessionProgram (SessionReq.Ans req) :=
  @Program.request sessionInterface CoreError req

section Life

variable [DebugFmt] [ManifestJson]

/-- Writes of one handle, one after the other, whatever comes of each. -/
def writes : List VectorOp → RecordVectorIndex → SessionProgram Unit
  | [], _ => pure ()
  | op :: rest, handle => do
    let _ ← tell (.begins op)
    let (handle, result) ← ((perform op).run handle).lift storeCalls
    let _ ← tell (.returned op handle result)
    writes rest handle

/-- A handle is opened and makes its writes. -/
def session (schedule : List UInt16 → List UInt16) (key : RecordKey) (space : String) (dim : Nat)
    (shards : ShardCount) (ops : List VectorOp) : SessionProgram Unit := do
  let handle ← (openWithShards schedule key space dim shards).lift storeCalls
  let _ ← tell (.opened handle)
  writes ops handle

omit [DebugFmt] [ManifestJson]

variable [DebugFmt] [ManifestJson]

end Life

end Gonzalo.Vector
