import Gonzalo.Graph.Model
import Gonzalo.Lib.Newest
import Gonzalo.Lib.Walk

/-!
# Graph stores

`gonzalo-graph/src/store.rs`: the queries a backend answers, those the trait derives from
them, and the in-memory store. A `BTreeSet` is a `Finset` that is listed in order.
-/

set_option autoImplicit false

namespace Gonzalo.Graph
open Gonzalo.Lib

/-- The required queries of `GraphStore`, as one state of a backend answers them. -/
structure GraphStore where
  symbolsInFile : String → List Symbol
  definitions : String → List (Located Symbol)
  referencesTo : String → List (Located Reference)
  importsInFile : String → List Import
  callersOf : String → List String
  callees : String → List String
  allSymbols : List (Located Symbol)
  allReferences : List (Located Reference)

/-- The answers by name are read off the symbols and references of the view. -/
structure GraphStore.Coherent (store : GraphStore) : Prop where
  definitions : ∀ name found, found ∈ store.definitions name ↔
    found ∈ store.allSymbols ∧ found.item.name = name
  referencesTo : ∀ name found, found ∈ store.referencesTo name ↔
    found ∈ store.allReferences ∧ found.item.name = name
  callersOf : ∀ name caller, caller ∈ store.callersOf name ↔
    ∃ found ∈ store.referencesTo name, found.item.kind ≠ .value ∧
      found.item.fromName = some caller

/-- A call with the function or module that makes it, as `callers_scoped` lists it. -/
def scopedCaller (located : Located Reference) : Option (String ×ₗ FromScope) :=
  if located.item.kind = .value then none
  else located.item.fromName.map fun caller => toLex (caller, located.item.fromScope)

/-- `GraphStore::callers_scoped`. -/
def GraphStore.callersScoped (store : GraphStore) (name : String) : List (String ×ₗ FromScope) :=
  ascending ((store.referencesTo name).filterMap scopedCaller)

/-! ## The impact walk -/

/-- `GraphStore::impact`: `none` when the walk has not ended after `fuel` turns. -/
def GraphStore.impact (store : GraphStore) (name : String) (fuel : Nat) : Option (List String) :=
  let state := (store.callersOf name).foldl visit ({name}, [])
  (drain store.callersOf fuel state.1 state.2).map fun visited => (visited.erase name).sort

/-- The callers of the name are what the first turn of the walk finds. -/
theorem GraphStore.impact_eq (store : GraphStore) (name : String) (fuel : Nat) :
    store.impact name fuel =
      (drain store.callersOf (fuel + 1) {name} [name]).map fun visited =>
        (visited.erase name).sort := rfl

/-- What the impact of a name holds: the other names from which callers lead to it. -/
theorem GraphStore.mem_impact {store : GraphStore} {name : String} {fuel : Nat}
    {reached : List String} (ended : store.impact name fuel = some reached) (caller : String) :
    caller ∈ reached ↔
      caller ≠ name ∧ Reaches (fun x y => x ∈ store.callersOf y) (· = name) caller := by
  rw [impact_eq, Option.map_eq_some_iff] at ended
  obtain ⟨visited, drained, rfl⟩ := ended
  have start : Queued store.callersOf (· = name) {name} [name] := by
    refine ⟨?_, ?_, ?_, ?_⟩
    · simp
    · simp
    · simp
    · intro x held
      exact ⟨0, .seed (Finset.mem_singleton.mp held)⟩
  rw [Finset.mem_sort, Finset.mem_erase, drain_reached start drained]

/-- Where the callers of all names are finitely many, the walk ends. -/
theorem GraphStore.impact_ends {store : GraphStore} {names : Finset String}
    (within : ∀ name, ∀ caller ∈ store.callersOf name, caller ∈ names) (name : String) :
    ∃ reached, Ends (store.impact name) reached := by
  obtain ⟨visited, drained⟩ := drain_ends within
    ((store.callersOf name).foldl visit ({name}, [])).1
    ((store.callersOf name).foldl visit ({name}, [])).2
  have listed := drained.map fun visited : Finset String => (visited.erase name).sort
  exact ⟨_, listed⟩

/-! ## The in-memory store -/

/-- `InMemoryGraphStore`: one slice per path. -/
structure InMemoryGraphStore where
  slices : Std.ExtTreeMap String CodeGraph compare

namespace InMemoryGraphStore

/-- `InMemoryGraphStore::new`. -/
def new : InMemoryGraphStore := ⟨∅⟩

/-- `insert`: the slice at the path is replaced. -/
def insert (self : InMemoryGraphStore) (path : String) (graph : CodeGraph) : InMemoryGraphStore :=
  ⟨self.slices.insert path graph⟩

/-- The items of every slice, in path order, each with its path. -/
def located {α : Type} (self : InMemoryGraphStore) (items : CodeGraph → List α) : List (Located α) :=
  self.slices.toList.flatMap fun (path, graph) => (items graph).map (⟨path, ·⟩)

/-- The items of every slice, in path order. -/
def items {α : Type} (self : InMemoryGraphStore) (items : CodeGraph → List α) : List α :=
  self.slices.toList.flatMap fun (_, graph) => items graph

/-- `impl GraphStore for InMemoryGraphStore`. -/
def queries (self : InMemoryGraphStore) : GraphStore where
  symbolsInFile path := (self.slices[path]?).elim [] CodeGraph.symbols
  importsInFile path := (self.slices[path]?).elim [] CodeGraph.imports
  definitions name := self.located fun graph => graph.symbols.filter (·.name = name)
  referencesTo name := self.located fun graph => graph.references.filter (·.name = name)
  callersOf name := ascending (((self.items CodeGraph.references).filter fun r =>
    r.name = name ∧ r.kind ≠ .value).filterMap Reference.fromName)
  callees name := ascending (((self.items CodeGraph.references).filter fun r =>
    r.fromName = some name ∧ r.kind ≠ .value).map Reference.name)
  allSymbols := self.located CodeGraph.symbols
  allReferences := self.located CodeGraph.references

theorem mem_located {α : Type} {self : InMemoryGraphStore} {items : CodeGraph → List α}
    {found : Located α} : found ∈ self.located items ↔
      ∃ graph, self.slices[found.path]? = some graph ∧ found.item ∈ items graph := by
  simp only [located, List.mem_flatMap, List.mem_map, Prod.exists,
    Std.ExtTreeMap.mem_toList_iff_getElem?_eq_some]
  constructor
  · rintro ⟨path, graph, at_, item, member, rfl⟩
    exact ⟨graph, at_, member⟩
  · rintro ⟨graph, at_, member⟩
    exact ⟨found.path, graph, at_, found.item, member, rfl⟩

theorem mem_items {α : Type} {self : InMemoryGraphStore} {items : CodeGraph → List α} {item : α} :
    item ∈ self.items items ↔ ∃ path, (⟨path, item⟩ : Located α) ∈ self.located items := by
  simp only [mem_located, InMemoryGraphStore.items, List.mem_flatMap, Prod.exists,
    Std.ExtTreeMap.mem_toList_iff_getElem?_eq_some]

/-- Filtering the items of every slice filters what is listed. -/
theorem mem_located_filter {α : Type} {self : InMemoryGraphStore} {items : CodeGraph → List α}
    {keep : α → Bool} {found : Located α} :
    found ∈ self.located (fun graph => (items graph).filter keep) ↔
      found ∈ self.located items ∧ keep found.item := by
  simp only [mem_located, List.mem_filter]
  constructor
  · rintro ⟨graph, held, member, kept⟩
    exact ⟨⟨graph, held, member⟩, kept⟩
  · rintro ⟨⟨graph, held, member⟩, kept⟩
    exact ⟨graph, held, member, kept⟩

/-- Whatever slices it holds, the in-memory store answers from them. -/
theorem coherent (self : InMemoryGraphStore) : self.queries.Coherent where
  definitions name found := by
    simp only [queries]
    rw [mem_located_filter, decide_eq_true_iff]
  referencesTo name found := by
    simp only [queries]
    rw [mem_located_filter, decide_eq_true_iff]
  callersOf name caller := by
    simp only [queries, mem_ascending, List.mem_filterMap, List.mem_filter, mem_items,
      decide_eq_true_iff]
    constructor
    · rintro ⟨item, ⟨⟨path, member⟩, named, called⟩, made⟩
      exact ⟨⟨path, item⟩, mem_located_filter.mpr ⟨member, by simpa using named⟩, called, made⟩
    · rintro ⟨⟨path, item⟩, member, called, made⟩
      obtain ⟨held, named⟩ := mem_located_filter.mp member
      exact ⟨item, ⟨⟨path, held⟩, by simpa using named, called⟩, made⟩

end InMemoryGraphStore

end Gonzalo.Graph
