import Gonzalo.Vector.ShardCodec

/-!
# The approximate index and the exact one

`gonzalo-vector/src/hnsw.rs`: a graph that can neither delete nor replace, under two maps
between keys and ids and a count of the dead ids, rebuilt when these are many. Beside it
`gonzalo-vector/src/index.rs`, the exact index. A vector's score is a value that only the
two comparisons look at.
-/

set_option autoImplicit false

namespace Gonzalo.Vector
open Gonzalo.Core Gonzalo.Lib

/-- The scores of vectors: `cosine`, `f32::partial_cmp` and `f32::total_cmp`. -/
class Scoring where
  Score : Type
  cosine : Components → Components → Score
  partialCmp : Score → Score → Option Ordering
  totalCmp : Score → Score → Ordering

/-- `Match`. -/
structure Match [Scoring] where
  key : RecordKey
  score : Scoring.Score

/-- The largest `usize`. -/
def usizeMax : Nat := 18446744073709551615

/-! ## The graph -/

/-- `Hnsw`: what was inserted into a graph of a capacity. -/
structure Hnsw where
  capacity : Nat
  points : List (Components × Nat)

def Hnsw.new (capacity : Nat) : Hnsw := ⟨capacity, []⟩

def Hnsw.insert (self : Hnsw) (vector : Components) (id : Nat) : Hnsw :=
  { self with points := self.points ++ [(vector, id)] }

def Hnsw.ids (self : Hnsw) : List Nat := self.points.map Prod.snd

/-- What the code leaves to others in one operation: the order in which a hash map gives up
its entries, and what a search of the graph answers to a query, a number of neighbours and a
breadth. -/
structure Chance where
  drain : List (Nat × Entry) → List (Nat × Entry)
  drain_perm : ∀ entries, (drain entries).Perm entries
  search : Hnsw → Components → Nat → Nat → List Nat
  search_nodup : ∀ graph query knbn ef, (search graph query knbn ef).Nodup
  search_inserted : ∀ graph query knbn ef, ∀ id ∈ search graph query knbn ef, id ∈ graph.ids

/-! ## The approximate index -/

/-- `INITIAL_CAPACITY`. -/
def initialCapacity : Nat := 10000

/-- `EF_SEARCH_MIN`. -/
def efSearchMin : Nat := 64

/-- `OVERFETCH`. -/
def overfetch : Nat := 4

/-- `MIN_REBUILD_TOMBSTONES`. -/
def minRebuildTombstones : Nat := 64

/-- `Inner`. -/
structure Inner where
  hnsw : Hnsw
  nextId : Nat
  keyToId : Std.ExtTreeMap RecordKey Nat compare
  idToEntry : Std.ExtTreeMap Nat Entry compare
  dim : Option Nat
  tombstones : Nat
  capacity : Nat

namespace Inner

/-- `empty`. -/
def empty : Inner where
  hnsw := .new initialCapacity
  nextId := 0
  keyToId := ∅
  idToEntry := ∅
  dim := none
  tombstones := 0
  capacity := initialCapacity

/-- `check_dim`. -/
def checkDim (self : Inner) (incoming : Nat) : Except CoreError Unit :=
  match self.dim with
  | some expected =>
    if incoming ≠ expected then
      .error (.backend ("vector dimension mismatch: expected " ++ toString expected ++ ", got " ++
        toString incoming))
    else .ok ()
  | none => .ok ()

/-- `insert_live`. -/
def insertLive (self : Inner) (key : RecordKey) (vector : Components) : Inner :=
  { self with
    hnsw := self.hnsw.insert vector self.nextId
    nextId := self.nextId + 1
    keyToId := self.keyToId.insert key self.nextId
    idToEntry := self.idToEntry.insert self.nextId (key, vector) }

/-- `rebuild`. -/
def rebuild (chance : Chance) (self : Inner) : Inner :=
  let entries := (chance.drain self.idToEntry.toList).map Prod.snd
  let capacity := max (entries.length * 2) initialCapacity
  let cleared : Inner :=
    { self with
      hnsw := .new capacity, capacity := capacity, nextId := 0, keyToId := ∅, idToEntry := ∅
      tombstones := 0 }
  entries.foldl (fun inner entry => inner.insertLive entry.1 entry.2) cleared

/-- `maybe_rebuild`. -/
def maybeRebuild (chance : Chance) (self : Inner) : Inner :=
  let live := self.idToEntry.size
  if (live < self.tombstones ∧ minRebuildTombstones < self.tombstones) ∨
      self.capacity ≤ self.nextId then self.rebuild chance
  else self

/-- The id of a key goes dead. -/
def bury (self : Inner) (key : RecordKey) (id : Nat) : Inner :=
  { self with
    keyToId := self.keyToId.erase key
    idToEntry := self.idToEntry.erase id
    tombstones := self.tombstones + 1 }

/-- `HnswVectorIndex::upsert`. -/
def upsert (chance : Chance) (self : Inner) (key : RecordKey) (vector : Components) :
    Except CoreError Inner := do
  self.checkDim vector.length
  let sized : Inner := { self with dim := some (self.dim.getD vector.length) }
  let replaced := match sized.keyToId[key]? with
    | some oldId => sized.bury key oldId
    | none => sized
  pure ((replaced.insertLive key vector).maybeRebuild chance)

/-- `HnswVectorIndex::remove`. -/
def remove (chance : Chance) (self : Inner) (key : RecordKey) : Inner :=
  match self.keyToId[key]? with
  | some id => (self.bury key id).maybeRebuild chance
  | none => self

/-- The neighbours that a query asks the graph for. -/
def neighbours (self : Inner) (k : Nat) : Nat :=
  max (min (saturatingAdd usizeMax (saturatingMul usizeMax k overfetch) self.tombstones)
    (self.idToEntry.size + self.tombstones)) k

/-- `HnswVectorIndex::keys`. -/
def keys (self : Inner) (filter : KeyPrefix) : List RecordKey := self.keyToId.keys.filter filter.matches

variable [Scoring]

/-- Descending score, then key. -/
def matchOrder (a b : Match) : Ordering :=
  ((Scoring.partialCmp b.score a.score).getD .eq).then (compare a.key b.key)

/-- The live entries among the graph's answers that pass the filter, with their scores. -/
def candidates (chance : Chance) (self : Inner) (query : Components) (k : Nat)
    (filter : KeyPrefix) : List Match :=
  let knbn := self.neighbours k
  let found := (chance.search self.hnsw query knbn (max knbn efSearchMin)).filterMap
    fun id => self.idToEntry[id]?
  (found.filter fun entry => filter.matches entry.1).map
    fun entry => ⟨entry.1, Scoring.cosine query entry.2⟩

/-- `HnswVectorIndex::query`. -/
def query (chance : Chance) (self : Inner) (query : Components) (k : Nat) (filter : KeyPrefix) :
    Except CoreError (List Match) :=
  if k = 0 then .ok []
  else if self.idToEntry.isEmpty then .ok []
  else do
    self.checkDim query.length
    let sorted := (self.candidates chance query k filter).mergeSort fun a b => (matchOrder a b).isLE
    pure (sorted.take k)

end Inner

/-! ## The exact index -/

namespace MemoryVectorIndex

/-- `MemoryVectorIndex::upsert`. -/
def upsert (map : Vectors) (key : RecordKey) (vector : Components) : Except CoreError Vectors := do
  checkDim map vector.length
  pure (map.insert key vector)

/-- `MemoryVectorIndex::remove`. -/
def remove (map : Vectors) (key : RecordKey) : Vectors := map.erase key

/-- `MemoryVectorIndex::keys`. -/
def keys (map : Vectors) (filter : KeyPrefix) : List RecordKey := map.keys.filter filter.matches

variable [Scoring]

def matchOrder (a b : Match) : Ordering :=
  (Scoring.totalCmp b.score a.score).then (compare a.key b.key)

/-- `MemoryVectorIndex::query`. -/
def query (map : Vectors) (query : Components) (k : Nat) (filter : KeyPrefix) :
    Except CoreError (List Match) := do
  if map.isEmpty then pure () else checkDim map query.length
  let matched := (map.toList.filter fun entry => filter.matches entry.1).map
    fun entry => (⟨entry.1, Scoring.cosine query entry.2⟩ : Match)
  pure ((matched.mergeSort fun a b => (matchOrder a b).isLE).take k)

end MemoryVectorIndex

/-! ## Both under the same calls -/

/-- A call of `VectorIndex`. -/
inductive VectorCall where
  | upsert (key : RecordKey) (vector : Components)
  | remove (key : RecordKey)
  | query (vector : Components) (k : Nat) (filter : KeyPrefix)

section Calls

variable [Scoring]

/-- What a call makes of the approximate index, and its answer. A failed call changes
nothing. -/
def Inner.perform (chance : Chance) (self : Inner) :
    VectorCall → Inner × Except CoreError (List Match)
  | .upsert key vector =>
    match self.upsert chance key vector with
    | .ok inner => (inner, .ok [])
    | .error e => (self, .error e)
  | .remove key => (self.remove chance key, .ok [])
  | .query vector k filter => (self, self.query chance vector k filter)

def MemoryVectorIndex.perform (map : Vectors) :
    VectorCall → Vectors × Except CoreError (List Match)
  | .upsert key vector =>
    match MemoryVectorIndex.upsert map key vector with
    | .ok map' => (map', .ok [])
    | .error e => (map, .error e)
  | .remove key => (MemoryVectorIndex.remove map key, .ok [])
  | .query vector k filter => (map, MemoryVectorIndex.query map vector k filter)

/-- One call on each of the two. -/
def bothPerform (pair : Inner × Vectors) (call : Chance × VectorCall) : Inner × Vectors :=
  ((pair.1.perform call.1 call.2).1, (MemoryVectorIndex.perform pair.2 call.2).1)

/-- A run of both, from fresh. -/
def bothRun (calls : List (Chance × VectorCall)) : Inner × Vectors :=
  calls.foldl bothPerform (.empty, ∅)

end Calls

end Gonzalo.Vector
