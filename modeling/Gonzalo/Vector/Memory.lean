import Gonzalo.Vector.RecordIndex

/-!
# What a handle does to its memory

The parts of `gonzalo-vector/src/record_index.rs` that make no call of the store, each as
one step from the vectors before to the vectors after. All vectors in memory have the
dimension of the index, so no insertion is refused.
-/

set_option autoImplicit false

namespace Gonzalo.Vector
open Gonzalo.Core Gonzalo.Lib

/-- What a delta does to the vectors. -/
def Delta.applyTo (content : Vectors) : Delta → Vectors
  | upsert key vector => content.insert key vector
  | remove key => content.erase key

/-- The vectors after a batch. -/
def replay (content : Vectors) (deltas : List Delta) : Vectors := deltas.foldl Delta.applyTo content

/-- Every vector has `dim` components. -/
def Uniform (dim : Nat) (content : Vectors) : Prop :=
  ∀ (key : RecordKey) (vector : Components), content[key]? = some vector → vector.length = dim

/-- Every vector that a delta inserts has `dim` components. -/
def Delta.Wide (dim : Nat) : Delta → Prop
  | upsert _ vector => vector.length = dim
  | remove _ => True

theorem Uniform.insert {dim : Nat} {content : Vectors} (uniform : Uniform dim content)
    {key : RecordKey} {vector : Components} (wide : vector.length = dim) :
    Uniform dim (content.insert key vector) := by
  intro k v stored
  rw [Std.ExtTreeMap.getElem?_insert] at stored
  split at stored
  · cases stored
    exact wide
  · exact uniform k v stored

theorem Uniform.erase {dim : Nat} {content : Vectors} (uniform : Uniform dim content)
    (key : RecordKey) : Uniform dim (content.erase key) := by
  intro k v stored
  rw [Std.ExtTreeMap.getElem?_erase] at stored
  split at stored
  · cases stored
  · exact uniform k v stored

theorem uniform_empty (dim : Nat) : Uniform dim ∅ := by
  intro k v stored
  rw [Std.ExtTreeMap.getElem?_empty] at stored
  cases stored

theorem Uniform.replay {dim : Nat} {content : Vectors} (uniform : Uniform dim content)
    {deltas : List Delta} (wide : ∀ delta ∈ deltas, delta.Wide dim) :
    Uniform dim (replay content deltas) := by
  induction deltas generalizing content with
  | nil => exact uniform
  | cons delta rest ih =>
    refine ih ?_ fun d later => wide d (List.mem_cons_of_mem _ later)
    have first := wide delta (by simp)
    cases delta with
    | upsert key vector => exact uniform.insert first
    | remove key => exact uniform.erase key

/-- Nothing is refused that has the dimension of what is there. -/
theorem checkDim_uniform {dim : Nat} {content : Vectors} (uniform : Uniform dim content) :
    checkDim content dim = .ok () := by
  unfold checkDim storedDim
  cases head : content.toList.head? with
  | none => rfl
  | some entry =>
    have stored := Std.ExtTreeMap.mem_toList_iff_getElem?_eq_some.mp (List.mem_of_head? head)
    simp [uniform _ _ stored]

theorem upsertInner_run {self : RecordVectorIndex} (uniform : Uniform self.dim self.inner)
    (key : RecordKey) {vector : Components} (wide : vector.length = self.dim) :
    upsertInner key vector self =
      .done ({ self with inner := self.inner.insert key vector }, .ok ()) := by
  change (Stateful.ofExcept (checkDim self.inner vector.length) >>= fun _ =>
    Stateful.modify fun self => { self with inner := self.inner.insert key vector }) self = _
  rw [wide, checkDim_uniform uniform]
  rfl

theorem removeInner_run (self : RecordVectorIndex) (key : RecordKey) :
    removeInner key self = .done ({ self with inner := self.inner.erase key }, .ok ()) := rfl

/-- A part that makes no call, before another one. -/
theorem run_bind {α β : Type} {m : IndexM α} {f : α → IndexM β} {self self' : RecordVectorIndex}
    {value : α} (ran : m self = .done (self', .ok value)) : (m >>= f) self = f value self' := by
  change (m self >>= _) = _
  rw [ran]
  rfl

theorem applyDeltas_run {self : RecordVectorIndex} (uniform : Uniform self.dim self.inner)
    {deltas : List Delta} (wide : ∀ delta ∈ deltas, delta.Wide self.dim) :
    applyDeltas deltas self =
      .done ({ self with inner := replay self.inner deltas }, .ok ()) := by
  unfold applyDeltas
  induction deltas generalizing self with
  | nil => rfl
  | cons delta rest ih =>
    have later : ∀ d ∈ rest, d.Wide self.dim := fun d member =>
      wide d (List.mem_cons_of_mem _ member)
    have first := wide delta (by simp)
    rw [List.foldlM_cons]
    cases delta with
    | upsert key vector =>
      rw [run_bind (upsertInner_run uniform key first)]
      exact @ih { self with inner := self.inner.insert key vector } (uniform.insert first) later
    | remove key =>
      rw [run_bind (removeInner_run self key)]
      exact @ih { self with inner := self.inner.erase key } (uniform.erase key) later

variable [Blake3]

/-! ## Shards -/

theorem getElem?_shardPart (content : Vectors) (shards id : UInt16) (key : RecordKey) :
    (shardPart content shards id)[key]? =
      if shardOf key shards = id then content[key]? else none := by
  rw [shardPart, Std.ExtTreeMap.getElem?_filter']
  by_cases here : shardOf key shards = id
  · simp only [here, decide_true, if_true]
    cases content[key]? <;> rfl
  · simp [here]

theorem shardPart_some {content : Vectors} {shards id : UInt16} {key : RecordKey}
    {vector : Components} : (shardPart content shards id)[key]? = some vector ↔
      shardOf key shards = id ∧ content[key]? = some vector := by
  rw [getElem?_shardPart]
  split
  next here => simp [here]
  next other => simp [other]

/-- Staging a delta on a shard is the delta, as far as the shard goes. -/
theorem stageDelta_shardPart (content : Vectors) (shards id : UInt16) (delta : Delta) :
    stageDelta shards id (shardPart content shards id) delta =
      shardPart (delta.applyTo content) shards id := by
  apply Std.ExtTreeMap.ext_getElem?
  intro key
  cases delta with
  | upsert k v =>
    simp only [stageDelta, Delta.applyTo, getElem?_shardPart, Std.ExtTreeMap.getElem?_insert]
    by_cases same : k = key
    · subst same
      split <;> simp_all [getElem?_shardPart]
    · simp only [Std.LawfulEqCmp.compare_eq_iff_eq, same, if_false]
      split <;> simp_all [getElem?_shardPart, Std.ExtTreeMap.getElem?_insert]
  | remove k =>
    simp only [stageDelta, Delta.applyTo, getElem?_shardPart, Std.ExtTreeMap.getElem?_erase]
    by_cases same : k = key
    · subst same
      split <;> simp_all [getElem?_shardPart]
    · simp only [Std.LawfulEqCmp.compare_eq_iff_eq, same, if_false]
      split <;> simp_all [getElem?_shardPart, Std.ExtTreeMap.getElem?_erase]

/-- A staged shard is the shard of the vectors after the batch. -/
theorem stageShard_eq (self : RecordVectorIndex) (id : UInt16) (deltas : List Delta) :
    stageShard self id deltas = (shardPart (replay self.inner deltas) self.shards id).toList := by
  unfold stageShard replay
  congr 1
  generalize self.inner = content
  induction deltas generalizing content with
  | nil => rfl
  | cons delta rest ih =>
    rw [List.foldl_cons, List.foldl_cons, stageDelta_shardPart]
    exact ih _

/-- A batch leaves a shard alone that none of its keys is in. -/
theorem shardPart_replay {content : Vectors} {shards id : UInt16} {deltas : List Delta}
    (clean : ∀ delta ∈ deltas, shardOf delta.key shards ≠ id) :
    shardPart (replay content deltas) shards id = shardPart content shards id := by
  unfold replay
  induction deltas generalizing content with
  | nil => rfl
  | cons delta rest ih =>
    rw [List.foldl_cons, ih fun d member => clean d (List.mem_cons_of_mem _ member)]
    rw [← stageDelta_shardPart]
    have other := clean delta (by simp)
    cases delta with
    | upsert key vector => exact if_neg other
    | remove key => exact if_neg other

/-! ## Loading a shard -/

/-- Vectors are told apart by their shards. -/
theorem vectors_ext {content content' : Vectors} {shards : UInt16}
    (parts : ∀ id, shardPart content shards id = shardPart content' shards id) :
    content = content' := by
  apply Std.ExtTreeMap.ext_getElem?
  intro key
  have part := congrArg (fun part : Vectors => part[key]?) (parts (shardOf key shards))
  simpa [getElem?_shardPart] using part

omit [Blake3] in
private theorem erase_all {entries : List Entry} {self : RecordVectorIndex} :
    ∃ inner, entries.foldlM (fun _ entry => removeInner entry.1) () self =
        .done ({ self with inner := inner }, .ok ()) ∧
      ∀ key : RecordKey, inner[key]? =
        if key ∈ entries.map Prod.fst then none else self.inner[key]? := by
  induction entries generalizing self with
  | nil => exact ⟨self.inner, rfl, by simp⟩
  | cons entry rest ih =>
    obtain ⟨inner, ran, lookup⟩ := @ih { self with inner := self.inner.erase entry.1 }
    refine ⟨inner, ?_, fun key => ?_⟩
    · rw [List.foldlM_cons, run_bind (removeInner_run self entry.1)]
      exact ran
    · rw [lookup]
      simp only [Std.ExtTreeMap.getElem?_erase, Std.LawfulEqCmp.compare_eq_iff_eq, List.map_cons,
        List.mem_cons, @eq_comm _ key]
      by_cases here : entry.1 = key
      · simp [here]
      · by_cases later : key ∈ rest.map Prod.fst
        · rw [if_pos later, if_pos (.inr later)]
        · rw [if_neg later, if_neg here, if_neg (not_or.mpr ⟨here, later⟩)]

theorem clearShard_run (id : UInt16) (self : RecordVectorIndex) :
    ∃ inner, clearShard id self = .done ({ self with inner := inner }, .ok ()) ∧
      ∀ key : RecordKey, inner[key]? =
        if shardOf key self.shards = id then none else self.inner[key]? := by
  obtain ⟨inner, ran, lookup⟩ := @erase_all (collectShard self id) self
  refine ⟨inner, ran, fun key => ?_⟩
  rw [lookup]
  by_cases here : shardOf key self.shards = id
  · rw [if_pos here]
    split
    · rfl
    next absent =>
      by_contra other
      obtain ⟨vector, stored⟩ := Option.ne_none_iff_exists'.mp other
      refine absent (List.mem_map.mpr ⟨(key, vector), ?_, rfl⟩)
      rw [collectShard, Std.ExtTreeMap.mem_toList_iff_getElem?_eq_some, shardPart_some]
      exact ⟨here, stored⟩
  · rw [if_neg here, if_neg]
    intro member
    obtain ⟨⟨k, v⟩, listed, rfl⟩ := List.mem_map.mp member
    rw [collectShard, Std.ExtTreeMap.mem_toList_iff_getElem?_eq_some, shardPart_some] at listed
    exact here listed.1

omit [Blake3] in
theorem upsert_all {entries : List Entry} {self : RecordVectorIndex}
    (uniform : Uniform self.dim self.inner)
    (wide : ∀ entry ∈ entries, entry.2.length = self.dim) :
    entries.foldlM (fun _ entry => upsertInner entry.1 entry.2) () self =
      .done ({ self with
        inner := entries.foldl (fun inner entry => inner.insert entry.1 entry.2) self.inner },
        .ok ()) := by
  induction entries generalizing self with
  | nil => rfl
  | cons entry rest ih =>
    have first := wide entry (by simp)
    rw [List.foldlM_cons, run_bind (upsertInner_run uniform entry.1 first)]
    exact @ih { self with inner := self.inner.insert entry.1 entry.2 } (uniform.insert first)
      fun e member => wide e (List.mem_cons_of_mem _ member)

omit [Blake3] in
/-- Entries that agree with `part`, inserted one by one. -/
theorem getElem?_insertAll {κ τ : Type} [DecidableEq κ] [Ord κ] [Std.TransOrd κ]
    [Std.LawfulEqOrd κ] {entries : List (κ × τ)} {inner part : Std.ExtTreeMap κ τ compare}
    (agree : ∀ (key : κ) (value : τ), (key, value) ∈ entries → part[key]? = some value) (key : κ) :
    (entries.foldl (fun inner entry => inner.insert entry.1 entry.2) inner)[key]? =
      if key ∈ entries.map Prod.fst then part[key]? else inner[key]? := by
  induction entries generalizing inner with
  | nil => simp
  | cons entry rest ih =>
    rw [List.foldl_cons, ih fun k v member => agree k v (List.mem_cons_of_mem _ member)]
    have first := agree entry.1 entry.2 (by simp)
    by_cases later : key ∈ rest.map Prod.fst
    · rw [if_pos later, if_pos (by simp [later])]
    · rw [if_neg later, Std.ExtTreeMap.getElem?_insert]
      by_cases here : entry.1 = key
      · subst here
        rw [if_pos (Std.LawfulEqCmp.compare_eq_iff_eq.mpr rfl), if_pos (by simp), first]
      · rw [if_neg fun same => here (Std.LawfulEqCmp.compare_eq_iff_eq.mp same), if_neg]
        simp only [List.map_cons, List.mem_cons, not_or]
        exact ⟨Ne.symm here, later⟩

/-- The blob of a shard holds these vectors. -/
def ShardHolds (dim : Nat) (hash : Option ContentHash) (part : Vectors) : Prop :=
  match hash with
  | none => part = ∅
  | some hash => ∃ bytes entries, ContentHash.of bytes = hash ∧
      decodeShard bytes = .ok (dim, entries) ∧
      ∀ (key : RecordKey) (vector : Components),
        (key, vector) ∈ entries ↔ part[key]? = some vector

end Gonzalo.Vector
