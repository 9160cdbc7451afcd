import Gonzalo.Vector.Hnsw

/-!
# The approximate index against the exact one

What is live in the approximate index, whatever the ids and however often the graph was
rebuilt, is what the exact index holds. The two part where the exact index forgets its
dimension with its last vector, and where a query for no neighbours is not looked at.
-/

set_option autoImplicit false

namespace Gonzalo.Vector
open Gonzalo.Core Gonzalo.Lib

namespace Inner

/-- The entry is live, under some id. -/
def Live (self : Inner) (key : RecordKey) (vector : Components) : Prop :=
  ∃ id : Nat, self.idToEntry[id]? = some (key, vector)

/-- The two maps are inverse to each other, ids are below the next one, and every vector has
the dimension that the index remembers. -/
structure Maps (inner : Inner) : Prop where
  inverse : ∀ (key : RecordKey) (id : Nat), inner.keyToId[key]? = some id ↔
    ∃ vector, inner.idToEntry[id]? = some (key, vector)
  below : ∀ (id : Nat) (entry : Entry), inner.idToEntry[id]? = some entry → id < inner.nextId
  sized : ∀ (id : Nat) (entry : Entry), inner.idToEntry[id]? = some entry → inner.dim = some entry.2.length

theorem maps_empty : empty.Maps := by
  refine ⟨fun key id => ?_, fun id entry stored => ?_, fun id entry stored => ?_⟩
  · simp [empty]
  · simp [empty] at stored
  · simp [empty] at stored

theorem not_live_empty (key : RecordKey) (vector : Components) : ¬ empty.Live key vector := by
  simp [Live, empty]

/-- A key is live under one id. -/
theorem Maps.same_id {self : Inner} (maps : self.Maps) {key : RecordKey} {id id' : Nat}
    {vector vector' : Components} (stored : self.idToEntry[id]? = some (key, vector))
    (stored' : self.idToEntry[id']? = some (key, vector')) : id = id' := by
  have first := (maps.inverse key id).mpr ⟨vector, stored⟩
  have second := (maps.inverse key id').mpr ⟨vector', stored'⟩
  rw [first] at second
  exact Option.some.inj second

/-- A key without an id is not live. -/
theorem Maps.fresh {self : Inner} (maps : self.Maps) {key : RecordKey}
    (absent : self.keyToId[key]? = none) (vector : Components) : ¬ self.Live key vector := by
  rintro ⟨id, stored⟩
  have known := (maps.inverse key id).mpr ⟨vector, stored⟩
  rw [absent] at known
  cases known

/-! ## A new entry -/

theorem Maps.next_free {self : Inner} (maps : self.Maps) : self.idToEntry[self.nextId]? = none := by
  cases taken : self.idToEntry[self.nextId]? with
  | none => rfl
  | some entry => exact absurd (maps.below _ _ taken) (lt_irrefl _)

theorem getElem?_insertLive (self : Inner) (key : RecordKey) (vector : Components) (id : Nat) :
    (self.insertLive key vector).idToEntry[id]? =
      if self.nextId = id then some (key, vector) else self.idToEntry[id]? := by
  simp only [insertLive, Std.ExtTreeMap.getElem?_insert, Std.LawfulEqCmp.compare_eq_iff_eq]

theorem live_insertLive {self : Inner} (maps : self.Maps) (key : RecordKey) (vector : Components)
    (k : RecordKey) (v : Components) :
    (self.insertLive key vector).Live k v ↔ (k = key ∧ v = vector) ∨ self.Live k v := by
  unfold Live
  constructor
  · rintro ⟨id, stored⟩
    rw [getElem?_insertLive] at stored
    split at stored
    · cases stored
      exact .inl ⟨rfl, rfl⟩
    · exact .inr ⟨id, stored⟩
  · rintro (⟨rfl, rfl⟩ | ⟨id, stored⟩)
    · exact ⟨self.nextId, by rw [getElem?_insertLive, if_pos rfl]⟩
    · refine ⟨id, ?_⟩
      have older := maps.below id _ stored
      rw [getElem?_insertLive, if_neg (by omega)]
      exact stored

theorem Maps.insertLive {self : Inner} (maps : self.Maps) {key : RecordKey} {vector : Components}
    (absent : self.keyToId[key]? = none) (fits : self.dim = some vector.length) :
    (self.insertLive key vector).Maps := by
  constructor
  · intro k id
    have known : (self.insertLive key vector).keyToId[k]? =
        if key = k then some self.nextId else self.keyToId[k]? := by
      simp only [Inner.insertLive, Std.ExtTreeMap.getElem?_insert,
        Std.LawfulEqCmp.compare_eq_iff_eq]
    rw [known, getElem?_insertLive]
    by_cases here : key = k
    · subst here
      rw [if_pos rfl]
      split
      next same => simp [same]
      next other =>
        constructor
        · intro same
          exact absurd (Option.some.inj same) other
        · rintro ⟨v, stored⟩
          exact absurd ⟨id, stored⟩ (maps.fresh absent v)
    · rw [if_neg here]
      split
      next same =>
        subst same
        constructor
        · intro known
          obtain ⟨v, stored⟩ := (maps.inverse k _).mp known
          rw [maps.next_free] at stored
          cases stored
        · rintro ⟨v, stored⟩
          cases stored
          exact absurd rfl here
      next other => exact maps.inverse k id
  · intro id entry stored
    rw [getElem?_insertLive] at stored
    change id < self.nextId + 1
    split at stored
    · omega
    · have older := maps.below id entry stored
      omega
  · intro id entry stored
    rw [getElem?_insertLive] at stored
    split at stored
    · cases stored
      exact fits
    · exact maps.sized id entry stored

/-! ## A dead id -/

theorem getElem?_bury (self : Inner) (key : RecordKey) (dead id : Nat) :
    (self.bury key dead).idToEntry[id]? = if dead = id then none else self.idToEntry[id]? := by
  simp only [bury, Std.ExtTreeMap.getElem?_erase, Std.LawfulEqCmp.compare_eq_iff_eq]

theorem getElem?_bury_key (self : Inner) (key k : RecordKey) (dead : Nat) :
    (self.bury key dead).keyToId[k]? = if key = k then none else self.keyToId[k]? := by
  simp only [bury, Std.ExtTreeMap.getElem?_erase, Std.LawfulEqCmp.compare_eq_iff_eq]

theorem live_bury {self : Inner} (maps : self.Maps) {key : RecordKey} {dead : Nat}
    (known : self.keyToId[key]? = some dead) (k : RecordKey) (v : Components) :
    (self.bury key dead).Live k v ↔ k ≠ key ∧ self.Live k v := by
  obtain ⟨old, buried⟩ := (maps.inverse key dead).mp known
  unfold Live
  constructor
  · rintro ⟨id, stored⟩
    rw [getElem?_bury] at stored
    split at stored
    · cases stored
    next other =>
      refine ⟨?_, id, stored⟩
      rintro rfl
      exact other (maps.same_id buried stored)
  · rintro ⟨other, id, stored⟩
    refine ⟨id, ?_⟩
    rw [getElem?_bury, if_neg]
    · exact stored
    · rintro rfl
      rw [buried] at stored
      cases stored
      exact other rfl

theorem Maps.bury {self : Inner} (maps : self.Maps) {key : RecordKey} {dead : Nat}
    (known : self.keyToId[key]? = some dead) : (self.bury key dead).Maps := by
  obtain ⟨old, buried⟩ := (maps.inverse key dead).mp known
  constructor
  · intro k id
    rw [getElem?_bury_key, getElem?_bury]
    by_cases here : key = k
    · subst here
      rw [if_pos rfl]
      constructor
      · intro never
        cases never
      · rintro ⟨v, stored⟩
        split at stored
        · cases stored
        next other => exact absurd (maps.same_id buried stored) other
    · rw [if_neg here]
      split
      next same =>
        subst same
        constructor
        · intro known'
          obtain ⟨v, stored⟩ := (maps.inverse k dead).mp known'
          rw [buried] at stored
          cases stored
          exact absurd rfl here
        · rintro ⟨v, stored⟩
          cases stored
      next other => exact maps.inverse k id
  · intro id entry stored
    rw [getElem?_bury] at stored
    split at stored
    · cases stored
    · exact maps.below id entry stored
  · intro id entry stored
    rw [getElem?_bury] at stored
    split at stored
    · cases stored
    · exact maps.sized id entry stored

/-! ## Rebuilding -/

/-- Entries inserted one by one, under keys that are new and distinct. -/
theorem insertAll_spec {entries : List Entry} {self : Inner} (maps : self.Maps)
    (absent : ∀ entry ∈ entries, self.keyToId[entry.1]? = none)
    (distinct : (entries.map Prod.fst).Nodup)
    (fits : ∀ entry ∈ entries, self.dim = some entry.2.length) :
    (entries.foldl (fun inner entry => inner.insertLive entry.1 entry.2) self).Maps ∧
      ∀ k v, (entries.foldl (fun inner entry => inner.insertLive entry.1 entry.2) self).Live k v ↔
        (k, v) ∈ entries ∨ self.Live k v := by
  induction entries generalizing self with
  | nil => exact ⟨maps, fun k v => by simp⟩
  | cons entry rest ih =>
    obtain ⟨apart, distinct⟩ := List.nodup_cons.mp (by simpa using distinct :
      (entry.1 :: rest.map Prod.fst).Nodup)
    have first := maps.insertLive (absent entry (by simp)) (fits entry (by simp))
    have later : ∀ e ∈ rest, (self.insertLive entry.1 entry.2).keyToId[e.1]? = none := by
      intro e member
      have other : entry.1 ≠ e.1 := fun same => apart (same ▸ List.mem_map_of_mem member)
      simp only [insertLive, Std.ExtTreeMap.getElem?_insert, Std.LawfulEqCmp.compare_eq_iff_eq,
        other, if_false]
      exact absent e (List.mem_cons_of_mem _ member)
    obtain ⟨after, live⟩ := ih first later distinct
      fun e member => fits e (List.mem_cons_of_mem _ member)
    refine ⟨after, fun k v => ?_⟩
    rw [List.foldl_cons, live k v, live_insertLive maps, List.mem_cons]
    have same : (k, v) = entry ↔ k = entry.1 ∧ v = entry.2 := Prod.ext_iff
    rw [same]
    tauto

/-- No two entries of the map have one key. -/
theorem Maps.distinct {self : Inner} (maps : self.Maps) (chance : Chance) :
    (((chance.drain self.idToEntry.toList).map Prod.snd).map Prod.fst).Nodup := by
  have perm := (((chance.drain_perm self.idToEntry.toList).map Prod.snd).map Prod.fst)
  rw [perm.nodup_iff, List.map_map]
  apply List.pairwise_map.mpr
  apply Std.ExtTreeMap.distinct_keys_toList.imp_of_mem
  intro a b memberA memberB apart same
  have storedA := Std.ExtTreeMap.mem_toList_iff_getElem?_eq_some.mp memberA
  have storedB := Std.ExtTreeMap.mem_toList_iff_getElem?_eq_some.mp memberB
  have one : a.1 = b.1 := by
    apply @Maps.same_id _ maps a.2.1 _ _ a.2.2 b.2.2 storedA
    rw [storedB]
    exact congrArg some (Prod.ext same.symm rfl)
  exact apart (Std.LawfulEqCmp.compare_eq_iff_eq.mpr one)

theorem mem_drained {self : Inner} (chance : Chance) (key : RecordKey) (vector : Components) :
    (key, vector) ∈ (chance.drain self.idToEntry.toList).map Prod.snd ↔ self.Live key vector := by
  rw [List.mem_map]
  constructor
  · rintro ⟨⟨id, entry⟩, member, same⟩
    rw [(chance.drain_perm _).mem_iff, Std.ExtTreeMap.mem_toList_iff_getElem?_eq_some] at member
    exact ⟨id, same ▸ member⟩
  · rintro ⟨id, stored⟩
    refine ⟨(id, key, vector), ?_, rfl⟩
    rwa [(chance.drain_perm _).mem_iff, Std.ExtTreeMap.mem_toList_iff_getElem?_eq_some]

/-- A rebuild renumbers the live entries, and keeps them. -/
theorem rebuild_spec {self : Inner} (maps : self.Maps) (chance : Chance) :
    (self.rebuild chance).Maps ∧
      ∀ k v, (self.rebuild chance).Live k v ↔ self.Live k v := by
  have fits : ∀ entry ∈ (chance.drain self.idToEntry.toList).map Prod.snd,
      self.dim = some entry.2.length := by
    intro entry member
    obtain ⟨id, stored⟩ := (mem_drained chance entry.1 entry.2).mp member
    exact maps.sized id _ stored
  unfold rebuild
  dsimp only
  generalize capacity : max (((chance.drain self.idToEntry.toList).map Prod.snd).length * 2)
    initialCapacity = room
  have cleared : Maps { self with
      hnsw := .new room, capacity := room, nextId := 0, keyToId := ∅, idToEntry := ∅
      tombstones := 0 } := by
    refine ⟨fun key id => by simp, fun id entry stored => ?_, fun id entry stored => ?_⟩
    · simp at stored
    · simp at stored
  obtain ⟨after, live⟩ := insertAll_spec cleared (fun entry _ => by simp) (maps.distinct chance)
    fits
  refine ⟨after, fun k v => ?_⟩
  rw [live k v, mem_drained]
  simp [Live]

theorem insertAll_tombstones (entries : List Entry) (self : Inner) :
    (entries.foldl (fun inner entry => inner.insertLive entry.1 entry.2) self).tombstones =
      self.tombstones := by
  induction entries generalizing self with
  | nil => rfl
  | cons entry rest ih => exact ih (self.insertLive entry.1 entry.2)

/-- The dead are few: no more than the live, or no more than the threshold. -/
def Bounded (self : Inner) : Prop :=
  self.tombstones ≤ max self.idToEntry.size minRebuildTombstones

theorem maybeRebuild_spec {self : Inner} (maps : self.Maps) (chance : Chance) :
    (self.maybeRebuild chance).Maps ∧ (self.maybeRebuild chance).Bounded ∧
      ∀ k v, (self.maybeRebuild chance).Live k v ↔ self.Live k v := by
  unfold maybeRebuild
  dsimp only
  split
  · obtain ⟨after, live⟩ := rebuild_spec maps chance
    refine ⟨after, ?_, live⟩
    have none_dead : (self.rebuild chance).tombstones = 0 := insertAll_tombstones _ _
    unfold Bounded
    omega
  next few =>
    refine ⟨maps, ?_, fun k v => Iff.rfl⟩
    unfold Bounded
    omega

/-! ## The calls -/

/-- The first vector fixes the dimension. -/
theorem Maps.sizedBy {self : Inner} (maps : self.Maps) (n : Nat) :
    Maps { self with dim := some (self.dim.getD n) } := by
  refine ⟨maps.inverse, maps.below, fun id entry stored => ?_⟩
  have known := maps.sized id entry stored
  simp [known]

theorem checkDim_ok {self : Inner} {n : Nat} (ok : self.checkDim n = .ok ()) :
    self.dim.getD n = n := by
  unfold checkDim at ok
  cases known : self.dim with
  | none => rfl
  | some d =>
    rw [known] at ok
    by_cases same : n = d
    · exact same.symm
    · simp [same] at ok

theorem upsert_ok {self : Inner} (maps : self.Maps) (chance : Chance) (key : RecordKey)
    {vector : Components} (ok : self.checkDim vector.length = .ok ()) :
    ∃ inner, self.upsert chance key vector = .ok inner ∧ inner.Maps ∧ inner.Bounded ∧
      ∀ k v, inner.Live k v ↔ (k = key ∧ v = vector) ∨ (k ≠ key ∧ self.Live k v) := by
  have fits : (some (self.dim.getD vector.length) : Option Nat) = some vector.length :=
    congrArg some (checkDim_ok ok)
  have sized := maps.sizedBy vector.length
  unfold upsert
  rw [ok]
  cases known : self.keyToId[key]? with
  | none =>
    have after := @Maps.insertLive _ sized key vector known fits
    obtain ⟨maps', bounded, live⟩ := maybeRebuild_spec after chance
    refine ⟨_, rfl, ?_⟩
    dsimp only
    rw [known]
    refine ⟨maps', bounded, fun k v => ?_⟩
    rw [live k v, live_insertLive sized]
    have new : self.Live k v → k ≠ key := by
      rintro stored rfl
      exact maps.fresh known v stored
    change _ ∨ self.Live k v ↔ _
    tauto
  | some dead =>
    have gone := @Maps.bury _ sized key dead known
    have unknown : (bury { self with dim := some (self.dim.getD vector.length) } key
        dead).keyToId[key]? = none := by
      rw [getElem?_bury_key, if_pos rfl]
    have after := gone.insertLive unknown fits
    obtain ⟨maps', bounded, live⟩ := maybeRebuild_spec after chance
    refine ⟨_, rfl, ?_⟩
    dsimp only
    rw [known]
    refine ⟨maps', bounded, fun k v => ?_⟩
    rw [live k v, live_insertLive gone, live_bury sized known]
    rfl

theorem upsert_error {self : Inner} (chance : Chance) (key : RecordKey) {vector : Components}
    {e : CoreError} (refused : self.checkDim vector.length = .error e) :
    self.upsert chance key vector = .error e := by
  unfold upsert
  rw [refused]
  rfl

theorem remove_spec {self : Inner} (maps : self.Maps) (bounded : self.Bounded) (chance : Chance)
    (key : RecordKey) :
    (self.remove chance key).Maps ∧ (self.remove chance key).Bounded ∧
      ∀ k v, (self.remove chance key).Live k v ↔ k ≠ key ∧ self.Live k v := by
  unfold remove
  cases known : self.keyToId[key]? with
  | none =>
    refine ⟨maps, bounded, fun k v => ⟨fun stored => ⟨?_, stored⟩, fun both => both.2⟩⟩
    rintro rfl
    exact maps.fresh known v stored
  | some dead =>
    obtain ⟨maps', bounded', live⟩ := maybeRebuild_spec (maps.bury known) chance
    refine ⟨maps', bounded', fun k v => ?_⟩
    rw [live k v, live_bury maps known]

variable [Scoring]

theorem mem_candidates {self : Inner} {chance : Chance} {query : Components} {k : Nat}
    {filter : KeyPrefix} {found : Match} (member : found ∈ self.candidates chance query k filter) :
    filter.matches found.key = true ∧
      ∃ vector, self.Live found.key vector ∧ found.score = Scoring.cosine query vector := by
  obtain ⟨entry, kept, rfl⟩ := List.mem_map.mp member
  obtain ⟨listed, matched⟩ := List.mem_filter.mp kept
  obtain ⟨id, _, stored⟩ := List.mem_filterMap.mp listed
  exact ⟨matched, entry.2, ⟨id, stored⟩, rfl⟩

/-- Distinct ids have distinct keys. -/
theorem nodup_candidates {self : Inner} (maps : self.Maps) (chance : Chance) (query : Components)
    (k : Nat) (filter : KeyPrefix) :
    ((self.candidates chance query k filter).map Match.key).Nodup := by
  unfold candidates
  dsimp only
  rw [List.map_map]
  apply List.pairwise_map.mpr
  apply List.Pairwise.filter
  apply List.pairwise_filterMap.mpr
  apply (chance.search_nodup _ _ _ _).imp
  intro id id' apart entry stored entry' stored' same
  apply apart
  apply @Maps.same_id _ maps entry.1 _ _ entry.2 entry'.2 stored
  exact stored'.trans (congrArg some (Prod.ext same.symm rfl))

/-- What a query answers: few matches, with distinct keys, live and scored as they are. -/
theorem query_spec {self : Inner} (maps : self.Maps) {chance : Chance} {query : Components}
    {k : Nat} {filter : KeyPrefix} {matches' : List Match}
    (answer : self.query chance query k filter = .ok matches') :
    matches'.length ≤ k ∧ (matches'.map Match.key).Nodup ∧
      ∀ found ∈ matches', filter.matches found.key = true ∧
        ∃ vector, self.Live found.key vector ∧ found.score = Scoring.cosine query vector := by
  unfold Inner.query at answer
  split at answer
  · cases answer
    simp
  split at answer
  · cases answer
    simp
  cases dim : self.checkDim query.length with
  | error e =>
    rw [dim] at answer
    cases answer
  | ok _ =>
    rw [dim] at answer
    cases answer
    have perm := List.mergeSort_perm (self.candidates chance query k filter)
      fun a b => (matchOrder a b).isLE
    refine ⟨by simp, ?_, fun found member => ?_⟩
    · have nodup := (perm.map Match.key).nodup_iff.mpr
        (nodup_candidates maps chance query k filter)
      exact nodup.sublist ((List.take_sublist _ _).map _)
    · exact mem_candidates (List.mem_mergeSort.mp (List.mem_of_mem_take member))

end Inner

/-! ## The two indexes together -/

/-- The exact index holds what is live in the approximate one. -/
def Represents (inner : Inner) (map : Vectors) : Prop :=
  ∀ (key : RecordKey) (vector : Components), map[key]? = some vector ↔ inner.Live key vector

theorem nothing_live {inner : Inner} :
    inner.idToEntry.isEmpty = true ↔ ∀ key vector, ¬ inner.Live key vector := by
  rw [Std.ExtTreeMap.isEmpty_iff]
  constructor
  · rintro none_stored key vector ⟨id, stored⟩
    rw [none_stored, Std.ExtTreeMap.getElem?_empty] at stored
    cases stored
  · intro dead
    apply Std.ExtTreeMap.ext_getElem?
    intro id
    rw [Std.ExtTreeMap.getElem?_empty]
    cases stored : inner.idToEntry[id]? with
    | none => rfl
    | some entry => exact absurd ⟨id, stored⟩ (dead entry.1 entry.2)

theorem Represents.isEmpty {inner : Inner} {map : Vectors} (same : Represents inner map) :
    inner.idToEntry.isEmpty = map.isEmpty := by
  rw [Bool.eq_iff_iff, nothing_live, Std.ExtTreeMap.isEmpty_iff]
  constructor
  · intro dead
    apply Std.ExtTreeMap.ext_getElem?
    intro key
    rw [Std.ExtTreeMap.getElem?_empty]
    cases stored : map[key]? with
    | none => rfl
    | some vector => exact absurd ((same key vector).mp stored) (dead key vector)
  · rintro rfl key vector live
    have stored := (same key vector).mpr live
    rw [Std.ExtTreeMap.getElem?_empty] at stored
    cases stored

/-- While something is live, both check against the same dimension. -/
theorem checkDim_eq {inner : Inner} {map : Vectors} (maps : inner.Maps)
    (same : Represents inner map) (live : inner.idToEntry.isEmpty = false) (n : Nat) :
    inner.checkDim n = checkDim map n := by
  have stored : map.isEmpty = false := same.isEmpty ▸ live
  unfold Inner.checkDim checkDim storedDim
  cases head : map.toList.head? with
  | none =>
    have none_listed : map.toList = [] := List.head?_eq_none_iff.mp head
    rw [← Std.ExtTreeMap.isEmpty_toList, none_listed] at stored
    cases stored
  | some entry =>
    have first := Std.ExtTreeMap.mem_toList_iff_getElem?_eq_some.mp (List.mem_of_head? head)
    obtain ⟨id, known⟩ := (same entry.1 entry.2).mp first
    rw [maps.sized id _ known]
    rfl

theorem checkDim_empty {map : Vectors} (none_stored : map.isEmpty = true) (n : Nat) :
    checkDim map n = .ok () := by
  rw [Std.ExtTreeMap.isEmpty_iff] at none_stored
  subst none_stored
  rfl

section Calls

variable [Scoring]

/-- Both accept the call or both refuse it, and a query answers with few, distinct, live
matches, scored as they are now. -/
structure Agrees (pair : Inner × Vectors) (call : Chance × VectorCall) : Prop where
  accepts : (pair.1.perform call.1 call.2).2.isOk = (MemoryVectorIndex.perform pair.2 call.2).2.isOk
  answers : ∀ (query : Components) (k : Nat) (filter : KeyPrefix) (found : List Match),
    call.2 = .query query k filter → (pair.1.perform call.1 call.2).2 = .ok found →
      found.length ≤ k ∧ (found.map Match.key).Nodup ∧
        ∀ m ∈ found, filter.matches m.key = true ∧
          ∃ vector, pair.2[m.key]? = some vector ∧ m.score = Scoring.cosine query vector

omit [Scoring] in
/-- The bookkeeping of the approximate index. -/
structure Faithful (pair : Inner × Vectors) : Prop where
  keys : ∀ (filter : KeyPrefix) (key : RecordKey),
    key ∈ pair.1.keys filter ↔ key ∈ MemoryVectorIndex.keys pair.2 filter
  inverse : ∀ (key : RecordKey) (id : Nat), pair.1.keyToId[key]? = some id ↔
    ∃ vector, pair.1.idToEntry[id]? = some (key, vector)
  below : ∀ (id : Nat) (entry : Entry), pair.1.idToEntry[id]? = some entry → id < pair.1.nextId
  bounded : pair.1.tombstones ≤ max pair.1.idToEntry.size minRebuildTombstones

/-- The two agree on every call of a run, and the bookkeeping holds after it. -/
def AgreesThroughout (calls : List (Chance × VectorCall)) : Prop :=
  ∀ before call, before ++ [call] <+: calls →
    Agrees (bothRun before) call ∧ Faithful (bothRun (before ++ [call]))

omit [Scoring] in
/-- The call has the dimension that the approximate index remembers, where the exact index
checks another one or the approximate index checks none: an insertion into an emptied index,
and a query for no neighbours. -/
def Meets (inner : Inner) : VectorCall → Prop
  | .upsert _ vector =>
    inner.idToEntry.isEmpty = true → ∀ dim, inner.dim = some dim → vector.length = dim
  | .remove _ => True
  | .query vector k _ =>
    k = 0 → inner.idToEntry.isEmpty = false → ∀ dim, inner.dim = some dim → vector.length = dim

omit [Scoring] in
/-- What holds of the two together in every run whose calls meet the condition. -/
structure Linked (pair : Inner × Vectors) : Prop where
  maps : pair.1.Maps
  bounded : pair.1.Bounded
  same : Represents pair.1 pair.2

omit [Scoring] in
theorem linked_fresh : Linked (.empty, ∅) := by
  refine ⟨Inner.maps_empty, by simp [Inner.Bounded, Inner.empty], fun key vector => ?_⟩
  constructor
  · intro stored
    rw [Std.ExtTreeMap.getElem?_empty] at stored
    cases stored
  · intro live
    exact absurd live (Inner.not_live_empty key vector)

omit [Scoring] in
theorem Linked.faithful {pair : Inner × Vectors} (linked : Linked pair) : Faithful pair := by
  refine ⟨fun filter key => ?_, linked.maps.inverse, linked.maps.below, linked.bounded⟩
  unfold Inner.keys MemoryVectorIndex.keys
  rw [List.mem_filter, List.mem_filter, Std.ExtTreeMap.mem_keys, Std.ExtTreeMap.mem_keys,
    Std.ExtTreeMap.mem_iff_isSome_getElem?, Std.ExtTreeMap.mem_iff_isSome_getElem?,
    Option.isSome_iff_exists, Option.isSome_iff_exists]
  have stored : (∃ id, pair.1.keyToId[key]? = some id) ↔ ∃ vector, pair.2[key]? = some vector := by
    constructor
    · rintro ⟨id, known⟩
      obtain ⟨vector, live⟩ := (linked.maps.inverse key id).mp known
      exact ⟨vector, (linked.same key vector).mpr ⟨id, live⟩⟩
    · rintro ⟨vector, stored⟩
      obtain ⟨id, live⟩ := (linked.same key vector).mp stored
      exact ⟨id, (linked.maps.inverse key id).mpr ⟨vector, live⟩⟩
  rw [stored]

/-! ## Which calls they accept -/

theorem Inner.accepts_upsert (inner : Inner) (maps : inner.Maps) (chance : Chance)
    (key : RecordKey) (vector : Components) :
    (inner.perform chance (.upsert key vector)).2.isOk = (inner.checkDim vector.length).isOk := by
  unfold Inner.perform
  cases checked : inner.checkDim vector.length with
  | ok _ =>
    obtain ⟨after, ran, _⟩ := Inner.upsert_ok maps chance key checked
    simp only [ran]
    rfl
  | error e =>
    simp only [Inner.upsert_error chance key checked]
    rfl

theorem MemoryVectorIndex.accepts_upsert (map : Vectors) (key : RecordKey) (vector : Components) :
    (MemoryVectorIndex.perform map (.upsert key vector)).2.isOk =
      (checkDim map vector.length).isOk := by
  unfold MemoryVectorIndex.perform MemoryVectorIndex.upsert
  cases checked : checkDim map vector.length with
  | ok _ =>
    simp only [checked]
    rfl
  | error e =>
    simp only [checked]
    rfl

theorem Inner.accepts_query (inner : Inner) (chance : Chance) (vector : Components) (k : Nat)
    (filter : KeyPrefix) : (inner.perform chance (.query vector k filter)).2.isOk =
      (decide (k = 0) || inner.idToEntry.isEmpty || (inner.checkDim vector.length).isOk) := by
  unfold Inner.perform Inner.query
  by_cases none_asked : k = 0
  · simp [none_asked, Except.isOk, Except.toBool]
  · cases inner.idToEntry.isEmpty with
    | true => simp [none_asked, Except.isOk, Except.toBool]
    | false =>
      cases checked : inner.checkDim vector.length with
      | ok _ =>
        simp only [none_asked, checked, if_false]
        rfl
      | error e =>
        simp only [none_asked, checked, if_false]
        rfl

theorem MemoryVectorIndex.accepts_query (map : Vectors) (vector : Components) (k : Nat)
    (filter : KeyPrefix) : (MemoryVectorIndex.perform map (.query vector k filter)).2.isOk =
      (map.isEmpty || (checkDim map vector.length).isOk) := by
  unfold MemoryVectorIndex.perform MemoryVectorIndex.query
  cases map.isEmpty with
  | true => rfl
  | false =>
    cases checked : checkDim map vector.length with
    | ok _ =>
      simp only [checked]
      rfl
    | error e =>
      simp only [checked]
      rfl

omit [Scoring] in
theorem Inner.checkDim_isOk (inner : Inner) (n : Nat) :
    (inner.checkDim n).isOk = true ↔ ∀ dim, inner.dim = some dim → n = dim := by
  unfold Inner.checkDim
  cases inner.dim with
  | none => simp [Except.isOk, Except.toBool]
  | some d => by_cases same : n = d <;> simp [same, Except.isOk, Except.toBool]

/-- The two accept alike exactly where the call meets the condition. -/
theorem Linked.accepts_iff {pair : Inner × Vectors} (linked : Linked pair)
    (call : Chance × VectorCall) :
    (pair.1.perform call.1 call.2).2.isOk = (MemoryVectorIndex.perform pair.2 call.2).2.isOk ↔
      Meets pair.1 call.2 := by
  obtain ⟨chance, call⟩ := call
  cases call with
  | remove key => exact ⟨fun _ => trivial, fun _ => rfl⟩
  | upsert key vector =>
    dsimp only
    rw [Inner.accepts_upsert _ linked.maps, MemoryVectorIndex.accepts_upsert]
    cases live : pair.1.idToEntry.isEmpty with
    | false => simp [checkDim_eq linked.maps linked.same live, Meets, live]
    | true =>
      rw [checkDim_empty (linked.same.isEmpty ▸ live)]
      change (_ = true) ↔ _
      rw [Inner.checkDim_isOk]
      simp [Meets, live]
  | query vector k filter =>
    dsimp only
    rw [Inner.accepts_query, MemoryVectorIndex.accepts_query, ← linked.same.isEmpty]
    cases live : pair.1.idToEntry.isEmpty with
    | true => simp [Meets, live]
    | false =>
      rw [← checkDim_eq linked.maps linked.same live]
      by_cases none_asked : k = 0
      · have fits := Inner.checkDim_isOk pair.1 vector.length
        simp only [none_asked, Meets, live]
        rw [← fits]
        simp
      · simp [none_asked, Meets]

theorem Linked.agrees_iff {pair : Inner × Vectors} (linked : Linked pair)
    (call : Chance × VectorCall) : Agrees pair call ↔ Meets pair.1 call.2 := by
  rw [← linked.accepts_iff call]
  constructor
  · exact fun agrees => agrees.accepts
  · intro accepts
    refine ⟨accepts, fun query k filter found asked answered => ?_⟩
    rw [asked] at answered
    obtain ⟨few, distinct, live⟩ := Inner.query_spec linked.maps answered
    refine ⟨few, distinct, fun m member => ?_⟩
    obtain ⟨matched, vector, stored, scored⟩ := live m member
    exact ⟨matched, vector, (linked.same m.key vector).mpr stored, scored⟩

/-! ## One call, and a run -/

/-- A call that meets the condition leaves the two linked. -/
theorem Linked.step {pair : Inner × Vectors} (linked : Linked pair) {call : Chance × VectorCall}
    (meets : Meets pair.1 call.2) : Linked (bothPerform pair call) := by
  have accepts := (linked.accepts_iff call).mpr meets
  obtain ⟨chance, call⟩ := call
  obtain ⟨inner, map⟩ := pair
  cases call with
  | query vector k filter => exact linked
  | remove key =>
    obtain ⟨maps, bounded, live⟩ := Inner.remove_spec linked.maps linked.bounded chance key
    refine ⟨maps, bounded, fun k v => ?_⟩
    change (map.erase key)[k]? = some v ↔ (inner.remove chance key).Live k v
    rw [live k v, ← linked.same k v, Std.ExtTreeMap.getElem?_erase]
    simp only [Std.LawfulEqCmp.compare_eq_iff_eq]
    by_cases here : key = k
    · simp [here]
    · simp [here, Ne.symm here]
  | upsert key vector =>
    dsimp only at accepts
    rw [Inner.accepts_upsert _ linked.maps, MemoryVectorIndex.accepts_upsert] at accepts
    unfold bothPerform Inner.perform MemoryVectorIndex.perform MemoryVectorIndex.upsert
    cases checked : inner.checkDim vector.length with
    | error e =>
      rw [checked] at accepts
      simp only [Inner.upsert_error chance key checked]
      cases exact_checked : checkDim map vector.length with
      | error _ => exact linked
      | ok _ =>
        rw [exact_checked] at accepts
        cases accepts
    | ok _ =>
      rw [checked] at accepts
      obtain ⟨after, ran, maps, bounded, live⟩ :=
        Inner.upsert_ok linked.maps chance key checked
      simp only [ran]
      cases exact_checked : checkDim map vector.length with
      | error _ =>
        rw [exact_checked] at accepts
        cases accepts
      | ok _ =>
        refine ⟨maps, bounded, fun k v => ?_⟩
        change (map.insert key vector)[k]? = some v ↔ after.Live k v
        rw [live k v, ← linked.same k v, Std.ExtTreeMap.getElem?_insert]
        simp only [Std.LawfulEqCmp.compare_eq_iff_eq]
        by_cases here : key = k
        · simp [here, eq_comm]
        · simp [here, Ne.symm here]

theorem bothRun_snoc (calls : List (Chance × VectorCall)) (call : Chance × VectorCall) :
    bothRun (calls ++ [call]) = bothPerform (bothRun calls) call := by
  simp [bothRun, List.foldl_append]

/-- Calls that all meet the condition leave the two linked. -/
theorem linked_run {calls : List (Chance × VectorCall)}
    (meets : ∀ before call, before ++ [call] <+: calls → Meets (bothRun before).1 call.2) :
    Linked (bothRun calls) := by
  induction calls using List.reverseRecOn with
  | nil => exact linked_fresh
  | append_singleton calls call ih =>
    rw [bothRun_snoc]
    have linked := ih fun before c early =>
      meets before c (early.trans (List.prefix_append calls [call]))
    exact linked.step (meets calls call (List.prefix_refl _))

/-- As long as the two agree on every call they stay linked: the first call that failed the
condition would come to indexes that are still linked, and they would part on it. -/
theorem linked_of_agrees {calls : List (Chance × VectorCall)}
    (agrees : ∀ before call, before ++ [call] <+: calls → Agrees (bothRun before) call)
    (before : List (Chance × VectorCall)) (early : before <+: calls) :
    Linked (bothRun before) := by
  induction before using List.reverseRecOn with
  | nil => exact linked_fresh
  | append_singleton before call ih =>
    have linked := ih ((List.prefix_append before [call]).trans early)
    rw [bothRun_snoc]
    exact linked.step ((linked.agrees_iff call).mp (agrees before call early))

/-- In every run the two indexes agree on every call, and the bookkeeping holds after it, if
and only if every call meets the condition. -/
theorem hnsw_agrees_iff (calls : List (Chance × VectorCall)) :
    AgreesThroughout calls ↔
      ∀ before call, before ++ [call] <+: calls → Meets (bothRun before).1 call.2 := by
  constructor
  · intro holds before call early
    exact ((linked_of_agrees fun b c sooner => (holds b c sooner).1) before
      ((List.prefix_append before [call]).trans early)).agrees_iff call |>.mp
        (holds before call early).1
  · intro meets before call early
    have sooner : ∀ b c, b ++ [c] <+: before ++ [call] → Meets (bothRun b).1 c.2 :=
      fun b c earlier => meets b c (earlier.trans early)
    have linked : Linked (bothRun before) := linked_run fun b c earlier =>
      sooner b c (earlier.trans (List.prefix_append before [call]))
    exact ⟨(linked.agrees_iff call).mpr (meets before call early), (linked_run sooner).faithful⟩

/-! ## Where they part -/

/-- Maps are drained in key order, and the graph is searched in full. -/
def exhaustive : Chance where
  drain := id
  drain_perm := fun entries => .refl entries
  search := fun graph _ _ _ => graph.ids.dedup
  search_nodup := fun graph _ _ _ => graph.ids.nodup_dedup
  search_inserted := fun _ _ _ _ _ member => List.mem_dedup.mp member

omit [Scoring] in
/-- Every vector scores alike. -/
@[reducible] def flatScoring : Scoring where
  Score := Unit
  cosine := fun _ _ => ()
  partialCmp := fun _ _ => some .eq
  totalCmp := fun _ _ => .eq

end Calls

section Parting

attribute [local instance] flatScoring

/-- A vector of two components goes in and out, and one of three follows. -/
def emptiedCalls : List (Chance × VectorCall) :=
  [(exhaustive, .upsert ⟨"ns", "col", "a"⟩ [1, 0]), (exhaustive, .remove ⟨"ns", "col", "a"⟩)]

/-- An emptied approximate index refuses the dimension that the exact one takes, and a query
for no neighbours of a wrong dimension is accepted by the approximate one only. -/
theorem indexes_part :
    ¬ AgreesThroughout (emptiedCalls ++ [(exhaustive, .upsert ⟨"ns", "col", "b"⟩ [1, 0, 0])]) ∧
    ¬ AgreesThroughout (emptiedCalls.take 1 ++ [(exhaustive, .query [1, 0, 0] 0 .all)]) := by
  constructor
  · intro agrees
    have accepts := (agrees emptiedCalls _ (List.prefix_refl _)).1.accepts
    revert accepts
    decide
  · intro agrees
    have accepts := (agrees (emptiedCalls.take 1) _ (List.prefix_refl _)).1.accepts
    revert accepts
    decide

end Parting

end Gonzalo.Vector
