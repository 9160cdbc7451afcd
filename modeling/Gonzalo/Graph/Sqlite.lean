import Gonzalo.Graph.Impact

/-!
# The SQLite store

`gonzalo-graph-sqlite/src/lib.rs`: three tables of rows keyed by path. A table is a list of
its rows; a `SELECT` answers the rows that match in any order that its `ORDER BY` admits,
which is all that SQL promises. Numbers are stored as `i64`.
-/

set_option autoImplicit false

namespace Gonzalo.Graph
open Gonzalo.Core Gonzalo.Lib

/-! ## Rows -/

/-- A row of `symbols`. -/
structure SymbolRow where
  path : String
  name : String
  kind : String
  startLine : Int64
  endLine : Int64
  owner : Option String
  deriving DecidableEq

/-- A row of `refs`. -/
structure RefRow where
  path : String
  name : String
  fromFn : Option String
  line : Int64
  kind : String
  qualifier : Option String
  fromScope : String
  deriving DecidableEq

/-- A row of `imports`. -/
structure ImportRow where
  path : String
  name : String
  module : String
  depth : Int64
  line : Int64
  deriving DecidableEq

/-- `join_module`. -/
def joinModule (segments : List String) : String := "/".intercalate segments

/-- `split_module`. -/
def splitModule (raw : String) : List String := if raw = "" then [] else splitAt raw '/'

/-- `kind_to_text`: the kind as `serde_json` writes it. -/
def kindToText (kind : SymbolKind) : String := "\"" ++ kind.asStr ++ "\""

def symbolKinds : List SymbolKind :=
  [.function, .struct, .enum, .trait, .impl, .module, .const, .static, .typeAlias, .class,
    .interface]

/-- The kind that `serde_json` reads. -/
def kindFromText (raw : String) : Option SymbolKind := symbolKinds.find? (kindToText · = raw)

def SymbolRow.of (path : String) (s : Symbol) : SymbolRow where
  path := path
  name := s.name
  kind := kindToText s.kind
  startLine := s.startLine.toInt64
  endLine := s.endLine.toInt64
  owner := s.owner

/-- `symbol_from_row`; every stored kind is read. -/
def SymbolRow.read (self : SymbolRow) : Option Symbol :=
  (kindFromText self.kind).map fun kind =>
    ⟨self.name, kind, self.startLine.toUInt64, self.endLine.toUInt64, self.owner⟩

def SymbolRow.located (self : SymbolRow) : Option (Located Symbol) :=
  self.read.map (⟨self.path, ·⟩)

def RefRow.of (path : String) (r : Reference) : RefRow where
  path := path
  name := r.name
  fromFn := r.fromName
  line := r.line.toInt64
  kind := r.kind.asStr
  qualifier := r.qualifier
  fromScope := r.fromScope.asStr

def RefRow.located (self : RefRow) : Located Reference where
  path := self.path
  item :=
    { name := self.name
      fromName := self.fromFn
      line := self.line.toUInt64
      kind := .fromStrOrFree self.kind
      qualifier := self.qualifier
      fromScope := .fromStrOrFunction self.fromScope }

def ImportRow.of (path : String) (i : Import) : ImportRow where
  path := path
  name := i.name
  module := joinModule i.path
  depth := i.depth.toInt64
  line := i.line.toInt64

def ImportRow.read (self : ImportRow) : Import where
  name := self.name
  path := splitModule self.module
  depth := self.depth.toUInt64
  line := self.line.toUInt64

/-! ## The tables -/

/-- `SqliteGraphStore`. -/
structure SqliteGraphStore where
  symbols : List SymbolRow
  refs : List RefRow
  imports : List ImportRow

namespace SqliteGraphStore

/-- `remove_path`. -/
def removePath (self : SqliteGraphStore) (path : String) : SqliteGraphStore where
  symbols := self.symbols.filter (·.path ≠ path)
  refs := self.refs.filter (·.path ≠ path)
  imports := self.imports.filter (·.path ≠ path)

/-- `insert`: the rows of the path are replaced. -/
def insert (self : SqliteGraphStore) (path : String) (graph : CodeGraph) : SqliteGraphStore where
  symbols := (self.removePath path).symbols ++ graph.symbols.map (SymbolRow.of path)
  refs := (self.removePath path).refs ++ graph.references.map (RefRow.of path)
  imports := (self.removePath path).imports ++ graph.imports.map (ImportRow.of path)

/-- `SELECT`: the rows that match, in an order that `ORDER BY` admits. -/
def Selects {Row : Type} (table : List Row) (matched : Row → Bool) (le : Row → Row → Prop)
    (rows : List Row) : Prop :=
  rows.Perm (table.filter matched) ∧ rows.Pairwise le

/-- `impl GraphStore for SqliteGraphStore`: what the queries may answer. -/
structure Answers (db : SqliteGraphStore) (store : GraphStore) : Prop where
  symbolsInFile : ∀ path, ∃ rows, Selects db.symbols (·.path = path) (fun _ _ => True) rows ∧
    store.symbolsInFile path = rows.filterMap SymbolRow.read
  importsInFile : ∀ path, ∃ rows,
    Selects db.imports (·.path = path) (fun a b => a.line ≤ b.line) rows ∧
      store.importsInFile path = rows.map ImportRow.read
  definitions : ∀ name, ∃ rows,
    Selects db.symbols (·.name = name) (fun a b => a.path ≤ b.path) rows ∧
      store.definitions name = rows.filterMap SymbolRow.located
  referencesTo : ∀ name, ∃ rows, Selects db.refs (·.name = name)
    (fun a b => a.path < b.path ∨ a.path = b.path ∧ a.line ≤ b.line) rows ∧
      store.referencesTo name = rows.map RefRow.located
  callersOf : ∀ name, store.callersOf name =
    ascending ((db.refs.filter fun r => r.name = name ∧ r.kind ≠ "value").filterMap RefRow.fromFn)
  callees : ∀ name, store.callees name =
    ascending ((db.refs.filter fun r => r.fromFn = some name ∧ r.kind ≠ "value").map RefRow.name)
  allSymbols : ∃ rows, Selects db.symbols (fun _ => true) (fun a b => a.path ≤ b.path) rows ∧
    store.allSymbols = rows.filterMap SymbolRow.located
  allReferences : ∃ rows, Selects db.refs (fun _ => true)
    (fun a b => a.path < b.path ∨ a.path = b.path ∧ a.line ≤ b.line) rows ∧
      store.allReferences = rows.map RefRow.located

end SqliteGraphStore

/-! ## Both stores -/

/-- One change of a store. -/
inductive GraphOp where
  | insert (path : String) (graph : CodeGraph)
  | removePath (path : String)

/-- The change of the in-memory store; a path is removed by dropping its slice. -/
def InMemoryGraphStore.perform (self : InMemoryGraphStore) : GraphOp → InMemoryGraphStore
  | .insert path graph => self.insert path graph
  | .removePath path => ⟨self.slices.erase path⟩

def SqliteGraphStore.perform (self : SqliteGraphStore) : GraphOp → SqliteGraphStore
  | .insert path graph => self.insert path graph
  | .removePath path => self.removePath path

def InMemoryGraphStore.run (ops : List GraphOp) : InMemoryGraphStore := ops.foldl perform new

def SqliteGraphStore.run (ops : List GraphOp) : SqliteGraphStore := ops.foldl perform ⟨[], [], []⟩

/-- The module segments have a text of their own, without a slash, and the line is in the
range of a column. -/
def Import.Plain (self : Import) : Prop :=
  (∀ segment ∈ self.path, segment ≠ "" ∧ '/' ∉ segment.toList) ∧ self.line.toNat < 2 ^ 63

/-- The imports of what is inserted are plain. -/
def GraphOp.Plain : GraphOp → Prop
  | insert _ graph => ∀ i ∈ graph.imports, i.Plain
  | removePath _ => True

/-! ## What a row keeps -/

theorem kindFromText_kindToText (kind : SymbolKind) : kindFromText (kindToText kind) = some kind := by
  cases kind <;> decide +kernel

@[simp] theorem SymbolRow.read_of (path : String) (s : Symbol) :
    (SymbolRow.of path s).read = some s := by
  simp [SymbolRow.of, SymbolRow.read, kindFromText_kindToText]

@[simp] theorem SymbolRow.located_of (path : String) (s : Symbol) :
    (SymbolRow.of path s).located = some ⟨path, s⟩ := by
  rw [SymbolRow.located, SymbolRow.read_of]
  rfl

@[simp] theorem RefRow.located_of (path : String) (r : Reference) :
    (RefRow.of path r).located = ⟨path, r⟩ := by
  simp [RefRow.of, RefRow.located]

theorem splitModule_joinModule {segments : List String}
    (plain : ∀ segment ∈ segments, segment ≠ "" ∧ '/' ∉ segment.toList) :
    splitModule (joinModule segments) = segments := by
  cases segments with
  | nil => simp [joinModule, splitModule]
  | cons first rest =>
    have filled : joinModule (first :: rest) ≠ "" := by
      have own := (plain first List.mem_cons_self).1
      cases rest with
      | nil => simpa [joinModule] using own
      | cons second rest => simp [joinModule, own]
    rw [splitModule, if_neg filled, joinModule]
    exact splitAt_intercalate (by simp) (fun f listed => (plain f listed).2) (List.cons_ne_nil _ _)

theorem ImportRow.read_of (path : String) {i : Import} (plain : i.Plain) :
    (ImportRow.of path i).read = i := by
  simp [ImportRow.of, ImportRow.read, splitModule_joinModule plain.1]

/-- Lines are ordered as numbers are. -/
theorem line_le_iff {i j : Import} (plain : i.Plain) (plain' : j.Plain) :
    i.line.toInt64 ≤ j.line.toInt64 ↔ i.line ≤ j.line := by
  have same : ∀ x : UInt64, x.toNat < 2 ^ 63 → x.toInt64.toInt = x.toNat := by
    intro x small
    exact BitVec.toInt_eq_toNat_of_lt (by simpa using by omega)
  rw [Int64.le_iff_toInt_le, same _ plain.2, same _ plain'.2, UInt64.le_iff_toNat_le]
  omega

/-! ## One table -/

/-- A list in which every item has one of the keys is its items key by key. -/
theorem perm_grouped {α : Type} {key : α → String} {keys : List String} (distinct : keys.Nodup)
    {items : List α} (keyed : ∀ x ∈ items, key x ∈ keys) :
    items.Perm (keys.flatMap fun k => items.filter (key · = k)) := by
  induction keys generalizing items with
  | nil =>
    have empty : items = [] := List.eq_nil_iff_forall_not_mem.mpr fun x member => by
      simpa using keyed x member
    simp [empty]
  | cons first rest ih =>
    obtain ⟨new, distinct⟩ := List.nodup_cons.mp distinct
    have others := @ih distinct (items.filter (key · ≠ first)) (by
      intro x member
      obtain ⟨listed, other⟩ := List.mem_filter.mp member
      exact (List.mem_cons.mp (keyed x listed)).resolve_left (by simpa using other))
    have same : ∀ k ∈ rest, (items.filter (key · ≠ first)).filter (key · = k) =
        items.filter (key · = k) := by
      intro k later
      rw [List.filter_filter]
      apply List.filter_congr
      intro x _
      by_cases here : key x = k
      · have other : k ≠ first := fun same => new (same ▸ later)
        simp [here, other]
      · simp [here]
    rw [List.flatMap_congr same] at others
    rw [List.flatMap_cons]
    have split := (List.filter_append_perm (fun x => decide (key x = first)) items).symm
    simp only [ne_eq, decide_not] at others
    exact split.trans (others.append_left _)

/-- What the slices hold, as rows. -/
def InMemoryGraphStore.rows {Row : Type} (self : InMemoryGraphStore)
    (of : String → CodeGraph → List Row) : List Row :=
  self.slices.toList.flatMap fun (path, graph) => of path graph

/-- The rows of each path are those of its slice. -/
def Filed {Row : Type} (key : Row → String) (of : String → CodeGraph → List Row)
    (mem : InMemoryGraphStore) (table : List Row) : Prop :=
  ∀ path, table.filter (key · = path) = (mem.slices[path]?).elim [] (of path)

section Table
variable {Row : Type} {key : Row → String} {of : String → CodeGraph → List Row}
  {mem : InMemoryGraphStore} {table : List Row}

/-- The table holds what the slices do. -/
theorem Filed.perm (filed : Filed key of mem table) : table.Perm (mem.rows of) := by
  have keyed : ∀ row ∈ table, key row ∈ mem.slices.keys := by
    intro row member
    have listed : row ∈ table.filter (key · = key row) := by simp [member]
    rw [filed] at listed
    cases held : mem.slices[key row]? with
    | none => simp [held] at listed
    | some graph =>
      rw [Std.ExtTreeMap.mem_keys, Std.ExtTreeMap.mem_iff_isSome_getElem?, held]
      rfl
  have grouped := perm_grouped Std.ExtTreeMap.nodup_keys keyed
  have same : ∀ entry ∈ mem.slices.toList,
      table.filter (key · = entry.1) = of entry.1 entry.2 := by
    intro entry listed
    rw [filed, Std.ExtTreeMap.mem_toList_iff_getElem?_eq_some.mp listed]
    rfl
  rwa [← Std.ExtTreeMap.map_fst_toList_eq_keys, List.flatMap_map, List.flatMap_congr same]
    at grouped

theorem Filed.removed (filed : Filed key of mem table) (path : String) :
    Filed key of ⟨mem.slices.erase path⟩ (table.filter (key · ≠ path)) := by
  intro other
  rw [List.filter_filter, Std.ExtTreeMap.getElem?_erase]
  simp only [compare_eq_iff_eq]
  split
  next same =>
    subst same
    simp
  next different =>
    rw [← filed]
    apply List.filter_congr
    intro row _
    by_cases here : key row = other
    · simp [here, Ne.symm different]
    · simp [here]

theorem Filed.inserted (filed : Filed key of mem table) (path : String) (graph : CodeGraph)
    (own : ∀ row ∈ of path graph, key row = path) :
    Filed key of (mem.insert path graph) (table.filter (key · ≠ path) ++ of path graph) := by
  intro other
  have removed := filed.removed path other
  rw [Std.ExtTreeMap.getElem?_erase] at removed
  rw [List.filter_append, removed, InMemoryGraphStore.insert, Std.ExtTreeMap.getElem?_insert]
  simp only [compare_eq_iff_eq]
  by_cases same : path = other
  · subst same
    simpa using own
  · have none_here : (of path graph).filter (key · = other) = [] := by
      rw [List.filter_eq_nil_iff]
      intro row member
      rw [own row member]
      simpa using same
    simp [same, none_here]

end Table

/-- The tables hold what the slices do. -/
structure Filing (mem : InMemoryGraphStore) (db : SqliteGraphStore) : Prop where
  symbols : Filed SymbolRow.path (fun path graph => graph.symbols.map (.of path)) mem db.symbols
  refs : Filed RefRow.path (fun path graph => graph.references.map (.of path)) mem db.refs
  imports : Filed ImportRow.path (fun path graph => graph.imports.map (.of path)) mem db.imports

theorem Filing.perform {mem : InMemoryGraphStore} {db : SqliteGraphStore} (filing : Filing mem db)
    (op : GraphOp) : Filing (mem.perform op) (db.perform op) := by
  cases op with
  | insert path graph =>
    refine ⟨filing.symbols.inserted path graph ?_, filing.refs.inserted path graph ?_,
      filing.imports.inserted path graph ?_⟩
    · simp [SymbolRow.of]
    · simp [RefRow.of]
    · simp [ImportRow.of]
  | removePath path =>
    exact ⟨filing.symbols.removed path, filing.refs.removed path, filing.imports.removed path⟩

/-- After any changes the two stores hold the same. -/
theorem filing_run (ops : List GraphOp) :
    Filing (InMemoryGraphStore.run ops) (SqliteGraphStore.run ops) := by
  have start : Filing InMemoryGraphStore.new ⟨[], [], []⟩ := by
    refine ⟨?_, ?_, ?_⟩ <;> intro path <;> simp [InMemoryGraphStore.new]
  unfold InMemoryGraphStore.run SqliteGraphStore.run
  generalize InMemoryGraphStore.new = mem at start
  generalize (⟨[], [], []⟩ : SqliteGraphStore) = db at start
  induction ops generalizing mem db with
  | nil => exact start
  | cons op rest ih => exact ih _ _ (start.perform op)

/-- The imports that the slices hold are plain. -/
def InMemoryGraphStore.Plain (self : InMemoryGraphStore) : Prop :=
  ∀ (path : String) (graph : CodeGraph), self.slices[path]? = some graph →
    ∀ i ∈ graph.imports, i.Plain

theorem plain_run {ops : List GraphOp} (plain : ∀ op ∈ ops, op.Plain) :
    (InMemoryGraphStore.run ops).Plain := by
  have start : InMemoryGraphStore.new.Plain := by
    intro path graph held
    simp [InMemoryGraphStore.new] at held
  unfold InMemoryGraphStore.run
  generalize InMemoryGraphStore.new = mem at start
  induction ops generalizing mem with
  | nil => exact start
  | cons op rest ih =>
    apply ih (fun op later => plain op (List.mem_cons_of_mem _ later))
    have own := plain op List.mem_cons_self
    intro path graph held
    cases op with
    | insert path' graph' =>
      change (mem.slices.insert path' graph')[path]? = some graph at held
      rw [Std.ExtTreeMap.getElem?_insert] at held
      split at held
      · cases held
        exact own
      · exact start path graph held
    | removePath path' =>
      change (mem.slices.erase path')[path]? = some graph at held
      rw [Std.ExtTreeMap.getElem?_erase] at held
      split at held
      · cases held
      · exact start path graph held

/-! ## The required queries -/

/-- The required queries answer the same multisets. -/
structure SameRows (mem sql : GraphStore) : Prop where
  symbolsInFile : ∀ path, (sql.symbolsInFile path).Perm (mem.symbolsInFile path)
  importsInFile : ∀ path, (sql.importsInFile path).Perm (mem.importsInFile path)
  definitions : ∀ name, (sql.definitions name).Perm (mem.definitions name)
  referencesTo : ∀ name, (sql.referencesTo name).Perm (mem.referencesTo name)
  callersOf : ∀ name, sql.callersOf name = mem.callersOf name
  callees : ∀ name, sql.callees name = mem.callees name
  allSymbols : sql.allSymbols.Perm mem.allSymbols
  allReferences : sql.allReferences.Perm mem.allReferences

/-- What has the rows of a coherent store is coherent. -/
theorem SameRows.coherent {mem sql : GraphStore} (rows : SameRows mem sql)
    (coherent : mem.Coherent) : sql.Coherent where
  definitions name found := by
    rw [(rows.definitions name).mem_iff, rows.allSymbols.mem_iff]
    exact coherent.definitions name found
  referencesTo name found := by
    rw [(rows.referencesTo name).mem_iff, rows.allReferences.mem_iff]
    exact coherent.referencesTo name found
  callersOf name caller := by
    simp only [rows.callersOf, (rows.referencesTo name).mem_iff]
    exact coherent.callersOf name caller

section Queries
variable {mem : InMemoryGraphStore} {db : SqliteGraphStore} {sql : GraphStore}

/-- What is read back from the rows that match is the items that do. -/
theorem rows_read {Row Item Out : Type} (items : CodeGraph → List Item)
    (of : String → Item → Row) (matched : Row → Bool) (keep : Item → Bool)
    (same : ∀ path item, matched (of path item) = keep item) {read : Row → Option Out}
    (out : String → Item → Option Out) (reads : ∀ path item, read (of path item) = out path item) :
    ((mem.rows fun path graph => (items graph).map (of path)).filter matched).filterMap read =
      mem.slices.toList.flatMap fun (path, graph) =>
        ((items graph).filter keep).filterMap (out path) := by
  have kept : ∀ path, matched ∘ of path = keep := fun path => funext (same path)
  have outs : ∀ path, read ∘ of path = out path := fun path => funext (reads path)
  unfold InMemoryGraphStore.rows
  induction mem.slices.toList with
  | nil => rfl
  | cons entry rest ih =>
    simp only [List.flatMap_cons, List.filter_append, List.filterMap_append, ih, List.filter_map,
      List.filterMap_map, kept, outs]

theorem rows_located {Row Item : Type} (items : CodeGraph → List Item)
    (of : String → Item → Row) (matched : Row → Bool) (keep : Item → Bool)
    (same : ∀ path item, matched (of path item) = keep item) {read : Row → Option (Located Item)}
    (reads : ∀ path item, read (of path item) = some ⟨path, item⟩) :
    ((mem.rows fun path graph => (items graph).map (of path)).filter matched).filterMap read =
      mem.located fun graph => (items graph).filter keep := by
  rw [rows_read items of matched keep same _ reads]
  simp [InMemoryGraphStore.located]

theorem items_read {Item Out : Type} {items : CodeGraph → List Item} (keep : Item → Bool)
    (out : Item → Option Out) :
    ((mem.items items).filter keep).filterMap out =
      mem.slices.toList.flatMap fun (_, graph) => ((items graph).filter keep).filterMap out := by
  unfold InMemoryGraphStore.items
  induction mem.slices.toList with
  | nil => rfl
  | cons entry rest ih =>
    simp only [List.flatMap_cons, List.filter_append, List.filterMap_append, ih]

theorem Filing.sameRows (filing : Filing mem db) (plain : mem.Plain) (answers : db.Answers sql) :
    SameRows mem.queries sql where
  symbolsInFile path := by
    obtain ⟨rows, ⟨perm, -⟩, answered⟩ := answers.symbolsInFile path
    rw [answered]
    refine (perm.filterMap _).trans (.of_eq ?_)
    rw [filing.symbols]
    cases held : mem.slices[path]? with
    | none => simp [InMemoryGraphStore.queries, held]
    | some graph => simp [InMemoryGraphStore.queries, held]
  importsInFile path := by
    obtain ⟨rows, ⟨perm, -⟩, answered⟩ := answers.importsInFile path
    rw [answered]
    refine (perm.map _).trans (.of_eq ?_)
    rw [filing.imports]
    cases held : mem.slices[path]? with
    | none => simp [InMemoryGraphStore.queries, held]
    | some graph =>
      have back : ∀ i ∈ graph.imports, (ImportRow.of path i).read = i := fun i listed =>
        ImportRow.read_of path (plain path graph held i listed)
      simp only [Option.elim_some, List.map_map, InMemoryGraphStore.queries, held]
      exact (List.map_congr_left back).trans (List.map_id _)
  definitions name := by
    obtain ⟨rows, ⟨perm, -⟩, answered⟩ := answers.definitions name
    rw [answered]
    apply (perm.filterMap _).trans (((filing.symbols.perm.filter _).filterMap _).trans (.of_eq _))
    exact rows_located CodeGraph.symbols SymbolRow.of _ (·.name = name) (fun _ _ => rfl)
      SymbolRow.located_of
  referencesTo name := by
    obtain ⟨rows, ⟨perm, -⟩, answered⟩ := answers.referencesTo name
    rw [answered]
    apply (perm.map _).trans (((filing.refs.perm.filter _).map _).trans (.of_eq _))
    rw [← List.filterMap_eq_map]
    exact rows_located CodeGraph.references RefRow.of _ (·.name = name) (fun _ _ => rfl)
      fun path r => congrArg some (RefRow.located_of path r)
  callersOf name := by
    rw [answers.callersOf]
    apply ascending_congr
    intro caller
    have perm := (filing.refs.perm.filter fun r =>
      r.name = name ∧ r.kind ≠ "value").filterMap RefRow.fromFn
    rw [rows_read CodeGraph.references RefRow.of (fun r => r.name = name ∧ r.kind ≠ "value")
      (fun r => r.name = name ∧ r.kind ≠ .value)
      (fun _ r => by simp [RefRow.of, RefKind.asStr_eq_value]) (fun _ => Reference.fromName)
      (fun _ _ => rfl), ← items_read] at perm
    exact perm.mem_iff
  callees name := by
    rw [answers.callees]
    apply ascending_congr
    intro callee
    have perm := (filing.refs.perm.filter fun r =>
      r.fromFn = some name ∧ r.kind ≠ "value").filterMap (some ∘ RefRow.name)
    rw [rows_read CodeGraph.references RefRow.of (fun r => r.fromFn = some name ∧ r.kind ≠ "value")
      (fun r => r.fromName = some name ∧ r.kind ≠ .value)
      (fun _ r => by simp [RefRow.of, RefKind.asStr_eq_value]) (fun _ => some ∘ Reference.name)
      (fun _ _ => rfl), ← items_read, List.filterMap_eq_map, List.filterMap_eq_map] at perm
    exact perm.mem_iff
  allSymbols := by
    obtain ⟨rows, ⟨perm, -⟩, answered⟩ := answers.allSymbols
    rw [answered]
    apply (perm.filterMap _).trans (((filing.symbols.perm.filter _).filterMap _).trans (.of_eq _))
    rw [rows_located CodeGraph.symbols SymbolRow.of (fun _ => true) (fun _ => true)
      (fun _ _ => rfl) SymbolRow.located_of]
    simp [InMemoryGraphStore.queries]
  allReferences := by
    obtain ⟨rows, ⟨perm, -⟩, answered⟩ := answers.allReferences
    rw [answered]
    apply (perm.map _).trans (((filing.refs.perm.filter _).map _).trans (.of_eq _))
    rw [← List.filterMap_eq_map, rows_located CodeGraph.references RefRow.of (fun _ => true)
      (fun _ => true) (fun _ _ => rfl) fun path r => congrArg some (RefRow.located_of path r)]
    simp [InMemoryGraphStore.queries]

end Queries

end Gonzalo.Graph
