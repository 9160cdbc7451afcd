import Gonzalo.Graph.Sqlite

/-!
# Resolution over both stores

What the trait and the resolver derive from the required queries. The stores answer these
alike up to order, and one derived query looks at an order: a name that several files define
is resolved by the first import of it, which the in-memory store lists as the parser found
it and the SQLite store by line.
-/

set_option autoImplicit false

namespace Gonzalo.Graph
open Gonzalo.Core Gonzalo.Lib

/-! ## The import that decides -/

/-- The candidate that an import points at. -/
def Import.target (self : Import) (fromPath : String) (candidates : List String) : Option String :=
  if 0 < self.depth then
    match relativeAnchor fromPath self.depth self.path with
    | none => none
    | some anchor => settle (candidates.filter (pathUnder · anchor)) fromPath
  else if self.path.isEmpty then none
  else settle (candidates.filter (pathEndsWithModule · self.path)) fromPath

/-- The first import of the name decides. -/
theorem importedTarget_eq (imports : List Import) (name fromPath : String)
    (candidates : List String) : importedTarget imports name fromPath candidates =
      (imports.find? (·.name = name)).elim (includedTarget imports fromPath candidates)
        (·.target fromPath candidates) := by
  unfold importedTarget Import.target
  cases imports.find? (·.name = name) <;> rfl

/-- Whole-file imports count in any order. -/
theorem includedTarget_perm {imports imports' : List Import} (perm : imports.Perm imports')
    (fromPath : String) (candidates : List String) :
    includedTarget imports fromPath candidates = includedTarget imports' fromPath candidates := by
  have included := perm.filter fun i => i.bringsWholeFile && !i.path.isEmpty
  simp only [includedTarget, included.isEmpty_eq, included.any_eq]

/-- The reference is left to the imports of its file. -/
structure LeftToImports (store : GraphStore) (name : String) (located : Located Reference) :
    Prop where
  listed : located ∈ store.referencesTo name
  unowned : qualifiedPaths (store.definitions name) located.item.qualifier = []
  foreign : located.path ∉ defPaths (store.definitions name)
  several : 1 < (defPaths (store.definitions name)).length
  no_method : located.item.kind ≠ .method

/-- Wherever imports decide, the first import of the name that the file lists and those of
it on the lowest line point at the same candidate. -/
def ImportsAgree (store : GraphStore) : Prop :=
  ∀ name located, LeftToImports store name located → ∀ first i,
    (store.importsInFile located.path).find? (·.name = name) = some first →
    i ∈ store.importsInFile located.path → i.name = name →
    (∀ j ∈ store.importsInFile located.path, j.name = name → i.line ≤ j.line) →
      i.target located.path (defPaths (store.definitions name)) =
        first.target located.path (defPaths (store.definitions name))

/-! ## All queries -/

/-- Every query answers the same multiset. -/
structure SameAnswers (mem sql : GraphStore) : Prop extends SameRows mem sql where
  callersScoped : ∀ name, sql.callersScoped name = mem.callersScoped name
  impact : ∀ name fuel, sql.impact name fuel = mem.impact name fuel
  resolved : ∀ name, (resolveReferencesTo sql name).Perm (resolveReferencesTo mem name)
  resolvedCallersOf : ∀ path name, resolvedCallersOf sql path name = resolvedCallersOf mem path name
  resolvedImpact : ∀ name maxDepth fuel,
    resolvedImpact sql name maxDepth fuel = resolvedImpact mem name maxDepth fuel

section Derived
variable {mem sql : GraphStore}

theorem SameRows.callersScoped (same : SameRows mem sql) (name : String) :
    sql.callersScoped name = mem.callersScoped name := by
  apply ascending_congr
  intro caller
  exact ((same.referencesTo name).filterMap _).mem_iff

theorem SameRows.impact (same : SameRows mem sql) (name : String) (fuel : Nat) :
    sql.impact name fuel = mem.impact name fuel := by
  unfold GraphStore.impact
  rw [funext same.callersOf]

theorem resolvedCallersOf_perm (resolved : ∀ name,
    (resolveReferencesTo sql name).Perm (resolveReferencesTo mem name)) (path name : String) :
    resolvedCallersOf sql path name = resolvedCallersOf mem path name := by
  apply ascending_congr
  intro caller
  exact (((resolved name).filter _).filterMap _).mem_iff

theorem SameRows.defPaths (same : SameRows mem sql) (name : String) :
    defPaths (sql.definitions name) = defPaths (mem.definitions name) := by
  apply ascending_congr
  intro path
  exact ((same.definitions name).map _).mem_iff

theorem SameRows.qualifiedPaths (same : SameRows mem sql) (name : String)
    (qualifier : Option String) : qualifiedPaths (sql.definitions name) qualifier =
      qualifiedPaths (mem.definitions name) qualifier := by
  cases qualifier with
  | none => rfl
  | some q =>
    apply ascending_congr
    intro path
    exact (((same.definitions name).filter _).map _).mem_iff

/-! ### The walk -/

/-- The walks know the same, as far as a report tells. -/
structure Alike (walk walk' : Walk) : Prop where
  visited : walk'.visited = walk.visited
  next : walk'.next.Perm walk.next
  counts : ∀ reason, walk'.report.count reason = walk.report.count reason
  truncated : walk'.report.truncated = walk.report.truncated

theorem Alike.finish {walk walk' : Walk} (alike : Alike walk walk') (seeds : Finset ImpactNode) :
    walk'.finish seeds = walk.finish seeds := by
  have value := alike.counts .value
  have ambiguous := alike.counts .ambiguous
  have unknown := alike.counts .receiverUnknown
  simp only [ImpactReport.count] at value ambiguous unknown
  simp only [Walk.finish, value, ambiguous, unknown, alike.visited, alike.truncated]

theorem callEdge_perm (resolved : ∀ name,
    (resolveReferencesTo sql name).Perm (resolveReferencesTo mem name)) (caller node : ImpactNode) :
    CallEdge sql caller node ↔ CallEdge mem caller node := by
  simp only [CallEdge, (resolved node.name).mem_iff]

/-- What is listed from the same members, visited in any order. -/
theorem visit_perm {α : Type} [DecidableEq α] {xs ys : List α} (same : ∀ x, x ∈ xs ↔ x ∈ ys)
    (visited : Finset α) : (xs.foldl visit (visited, [])).1 = (ys.foldl visit (visited, [])).1 ∧
      (xs.foldl visit (visited, [])).2.Perm (ys.foldl visit (visited, [])).2 := by
  constructor
  · ext x
    rw [mem_visited, mem_visited, same]
  · rw [List.perm_ext_iff_of_nodup (nodup_listed (by simp) List.nodup_nil)
      (nodup_listed (by simp) List.nodup_nil)]
    intro x
    rw [mem_listed, mem_listed, same]

/-- One level keeps the walks alike. -/
theorem Alike.level (resolved : ∀ name,
    (resolveReferencesTo sql name).Perm (resolveReferencesTo mem name)) {walk walk' : Walk}
    (alike : Alike walk walk') {frontier frontier' : List ImpactNode}
    (perm : frontier'.Perm frontier) :
    Alike (frontier.foldl (explore mem) { walk with next := [] })
      (frontier'.foldl (explore sql) { walk' with next := [] }) := by
  have adds := level_adds mem frontier { walk with next := [] }
  have adds' := level_adds sql frontier' { walk' with next := [] }
  have same : ∀ caller, caller ∈ frontier'.flatMap (callersInto sql) ↔
      caller ∈ frontier.flatMap (callersInto mem) := by
    intro caller
    simp only [mem_level_callers, perm.mem_iff, callEdge_perm resolved]
  have visits := visit_perm same walk'.visited
  obtain ⟨visited, next⟩ := Prod.ext_iff.mp adds.visits
  obtain ⟨visited', next'⟩ := Prod.ext_iff.mp adds'.visits
  have start : (walk.visited, ([] : List ImpactNode)) = (walk'.visited, []) := by
    rw [alike.visited]
  rw [start] at visited next
  refine ⟨?_, ?_, fun reason => ?_, ?_⟩
  · exact visited'.trans (visits.1.trans visited.symm)
  · exact .trans (.of_eq next') (visits.2.trans (.of_eq next.symm))
  · have declined : ∀ name, declinedCount sql reason name = declinedCount mem reason name :=
      fun name => (resolved name).countP_eq _
    rw [adds'.counts, adds.counts]
    simp only [declined]
    rw [(perm.map _).sum_eq]
    have counts := alike.counts reason
    cases reason <;> simpa [ImpactReport.count] using counts
  · rw [adds'.truncated, adds.truncated]
    exact alike.truncated

theorem walkLoop_alike (resolved : ∀ name,
    (resolveReferencesTo sql name).Perm (resolveReferencesTo mem name)) (maxDepth : Option Nat)
    (seeds : Finset ImpactNode) {fuel depth : Nat} {frontier frontier' : List ImpactNode}
    (perm : frontier'.Perm frontier) {walk walk' : Walk} (alike : Alike walk walk') :
    (walkLoop sql maxDepth fuel depth frontier' walk').map (·.finish seeds) =
      (walkLoop mem maxDepth fuel depth frontier walk).map (·.finish seeds) := by
  induction fuel generalizing depth frontier frontier' walk walk' with
  | zero =>
    cases frontier with
    | nil =>
      cases perm.eq_nil
      exact congrArg some (alike.finish seeds)
    | cons node nodes =>
      cases frontier' with
      | nil => exact absurd perm.symm.eq_nil (List.cons_ne_nil node nodes)
      | cons node' nodes' => rfl
  | succ fuel ih =>
    cases frontier with
    | nil =>
      cases perm.eq_nil
      exact congrArg some (alike.finish seeds)
    | cons node nodes =>
      cases frontier' with
      | nil => exact absurd perm.symm.eq_nil (List.cons_ne_nil node nodes)
      | cons node' nodes' =>
        rw [walkLoop, walkLoop]
        split
        · have cut : Alike { walk with report.truncated := true }
              { walk' with report.truncated := true } := by
            refine ⟨alike.visited, alike.next, fun reason => ?_, rfl⟩
            have counts := alike.counts reason
            cases reason <;> exact counts
          exact congrArg some (cut.finish seeds)
        · have level := alike.level resolved perm
          exact ih level.next level

theorem resolvedImpact_perm (same : SameRows mem sql) (resolved : ∀ name,
    (resolveReferencesTo sql name).Perm (resolveReferencesTo mem name)) (name : String)
    (maxDepth : Option Nat) (fuel : Nat) :
    resolvedImpact sql name maxDepth fuel = resolvedImpact mem name maxDepth fuel := by
  have seeds : (impactSeeds sql name).Perm (impactSeeds mem name) := (same.definitions name).map _
  have one : (impactSeeds sql name).toFinset = (impactSeeds mem name).toFinset :=
    List.toFinset_eq_of_perm _ _ seeds
  simp only [resolvedImpact, one]
  exact walkLoop_alike resolved maxDepth _ seeds ⟨rfl, .refl _, fun _ => rfl, rfl⟩

/-! ### One reference -/

theorem LeftToImports.sameRows {name : String} {located : Located Reference}
    (left : LeftToImports mem name located) (same : SameRows mem sql) :
    LeftToImports sql name located where
  listed := (same.referencesTo name).mem_iff.mpr left.listed
  unowned := (same.qualifiedPaths _ _).trans left.unowned
  foreign := same.defPaths name ▸ left.foreign
  several := same.defPaths name ▸ left.several
  no_method := left.no_method

/-- A reference that is left to the imports has the target that they give. -/
theorem LeftToImports.resolve {store : GraphStore} {name : String} {located : Located Reference}
    (left : LeftToImports store name located) : store.resolve name located =
      match importedTarget (store.importsInFile located.path) name located.path
        (defPaths (store.definitions name)) with
      | some path => ⟨located, some path, .imported⟩
      | none => ⟨located, none, .ambiguous⟩ := by
  have some_defined : defPaths (store.definitions name) ≠ [] := by
    intro none_defined
    have several := left.several
    rw [none_defined] at several
    exact absurd several (by simp)
  have not_sole : (defPaths (store.definitions name)).length ≠ 1 := by
    have several := left.several
    omega
  simp only [GraphStore.resolve, resolveTarget, left.unowned, left.foreign, left.no_method,
    some_defined, not_sole, getElem?_importsByPath left.several left.listed, List.length_nil,
    zero_ne_one, if_false, ne_eq, not_true_eq_false, Option.bind_some]
  cases importedTarget (store.importsInFile located.path) name located.path
    (defPaths (store.definitions name)) <;> rfl

/-- No other reference depends on imports. -/
theorem SameRows.resolve_unimported (same : SameRows mem sql) {name : String}
    {located : Located Reference} (listed : located ∈ mem.referencesTo name)
    (settled : ¬ LeftToImports mem name located) :
    sql.resolve name located = mem.resolve name located := by
  simp only [GraphStore.resolve, resolveTarget, same.qualifiedPaths, same.defPaths]
  split
  · rfl
  · split
    · rfl
    next not_sole owned =>
      split
      · rfl
      next foreign =>
        split
        · rfl
        next some_defined =>
          split
          · rfl
          next no_method =>
            split
            · rfl
            next not_single =>
              have filled := List.length_pos_iff.mpr some_defined
              exact absurd ⟨listed, not_not.mp owned, foreign, by omega, no_method⟩ settled

end Derived

/-! ## The order of imports -/

section Order
variable {mem : InMemoryGraphStore} {db : SqliteGraphStore} {sql : GraphStore}

/-- What is found first in an ordered list is least. -/
theorem find?_least {α : Type} {le : α → α → Prop} (refl : ∀ x, le x x) {xs : List α}
    (ordered : xs.Pairwise le) {found : α → Bool} {x : α} (first : xs.find? found = some x) {y : α}
    (member : y ∈ xs) (also : found y) : le x y := by
  obtain ⟨-, before, after, rfl, missed⟩ := List.find?_eq_some_iff_append.mp first
  rcases List.mem_append.mp member with earlier | later
  · have other := missed y earlier
    rw [also] at other
    cases other
  · rcases List.mem_cons.mp later with rfl | later
    · exact refl y
    · exact (List.pairwise_cons.mp (List.pairwise_append.mp ordered).2.1).1 y later

/-- The import rows of a path are those of the imports of its slice. -/
theorem Filing.importRows (filing : Filing mem db) (path : String) :
    db.imports.filter (·.path = path) =
      (mem.queries.importsInFile path).map (ImportRow.of path) := by
  rw [filing.imports]
  cases held : mem.slices[path]? with
  | none => simp [InMemoryGraphStore.queries, held]
  | some graph => simp [InMemoryGraphStore.queries, held]

theorem InMemoryGraphStore.Plain.listed (plain : mem.Plain) {path : String} {i : Import}
    (listed : i ∈ mem.queries.importsInFile path) : i.Plain := by
  cases held : mem.slices[path]? with
  | none => simp [InMemoryGraphStore.queries, held] at listed
  | some graph =>
    simp only [InMemoryGraphStore.queries, held, Option.elim_some] at listed
    exact plain path graph held i listed

/-- The imports of a file are listed by line. -/
theorem Filing.imports_ordered (filing : Filing mem db) (plain : mem.Plain)
    (answers : db.Answers sql) (path : String) :
    (sql.importsInFile path).Pairwise (·.line ≤ ·.line) := by
  obtain ⟨rows, ⟨perm, ordered⟩, answered⟩ := answers.importsInFile path
  rw [filing.importRows] at perm
  rw [answered, List.pairwise_map]
  apply ordered.imp_of_mem
  intro row row' member member' below
  obtain ⟨i, listed, rfl⟩ := List.mem_map.mp (perm.mem_iff.mp member)
  obtain ⟨j, listed', rfl⟩ := List.mem_map.mp (perm.mem_iff.mp member')
  have own := plain.listed listed
  have own' := plain.listed listed'
  rw [ImportRow.read_of path own, ImportRow.read_of path own']
  exact (line_le_iff own own').mp below

/-- Where the imports agree, both orders give the same target. -/
theorem ImportsAgree.importedTarget_eq (agree : ImportsAgree mem.queries)
    (same : SameRows mem.queries sql) (ordered : ∀ path,
      (sql.importsInFile path).Pairwise (·.line ≤ ·.line)) {name : String}
    {located : Located Reference} (left : LeftToImports mem.queries name located) :
    importedTarget (sql.importsInFile located.path) name located.path
        (defPaths (mem.queries.definitions name)) =
      importedTarget (mem.queries.importsInFile located.path) name located.path
        (defPaths (mem.queries.definitions name)) := by
  have perm := same.importsInFile located.path
  rw [Graph.importedTarget_eq, Graph.importedTarget_eq]
  cases here : (mem.queries.importsInFile located.path).find? (·.name = name) with
  | none =>
    have none_there : (sql.importsInFile located.path).find? (·.name = name) = none := by
      rw [List.find?_eq_none] at here ⊢
      exact fun i member => here i (perm.mem_iff.mp member)
    rw [none_there]
    exact includedTarget_perm perm _ _
  | some first =>
    have named := List.find?_some here
    have some_there : (sql.importsInFile located.path).find? (·.name = name) ≠ none := by
      intro none_there
      rw [List.find?_eq_none] at none_there
      exact none_there first (perm.mem_iff.mpr (List.mem_of_find?_eq_some here)) named
    obtain ⟨i, there⟩ := Option.ne_none_iff_exists'.mp some_there
    have named' := List.find?_some there
    rw [there]
    apply agree name located left first i here
    · exact perm.mem_iff.mp (List.mem_of_find?_eq_some there)
    · exact of_decide_eq_true named'
    · intro j member named
      exact find?_least (fun i : Import => UInt64.le_refl i.line) (ordered located.path) there
        (perm.mem_iff.mpr member) (decide_eq_true named)

theorem ImportsAgree.resolved (agree : ImportsAgree mem.queries) (same : SameRows mem.queries sql)
    (ordered : ∀ path, (sql.importsInFile path).Pairwise (·.line ≤ ·.line)) (name : String) :
    (resolveReferencesTo sql name).Perm (resolveReferencesTo mem.queries name) := by
  have each : ∀ located ∈ mem.queries.referencesTo name,
      sql.resolve name located = mem.queries.resolve name located := by
    intro located listed
    by_cases left : LeftToImports mem.queries name located
    · rw [(left.sameRows same).resolve, left.resolve, same.defPaths,
        agree.importedTarget_eq same ordered left]
    · exact same.resolve_unimported listed left
  have perm := (same.referencesTo name).map (sql.resolve name)
  rwa [List.map_congr_left each] at perm

/-- Where the imports agree, all answers do. -/
theorem ImportsAgree.sameAnswers (agree : ImportsAgree mem.queries) (filing : Filing mem db)
    (plain : mem.Plain) (answers : db.Answers sql) : SameAnswers mem.queries sql := by
  have same := filing.sameRows plain answers
  have resolved := agree.resolved same (filing.imports_ordered plain answers)
  exact
    { same with
      callersScoped := same.callersScoped
      impact := same.impact
      resolved := resolved
      resolvedCallersOf := resolvedCallersOf_perm resolved
      resolvedImpact := resolvedImpact_perm same resolved }

end Order

/-! ## Every order is possible -/

section Possible
variable {Row : Type} {le : Row → Row → Prop} [DecidableRel le]

/-- Some rows are answered, in an order. -/
theorem exists_selects (trans : ∀ a b c, le a b → le b c → le a c) (total : ∀ a b, le a b ∨ le b a)
    (table : List Row) (matched : Row → Bool) :
    ∃ rows, SqliteGraphStore.Selects table matched le rows := by
  refine ⟨(table.filter matched).mergeSort (decide <| le · ·), List.mergeSort_perm _ _, ?_⟩
  have sorted := @List.pairwise_mergeSort _ (fun a b => decide (le a b))
    (by simpa using trans) (by simpa using total) (table.filter matched)
  simpa using sorted

/-- Among the rows that tie any one may come first. -/
theorem exists_selects_first [DecidableEq Row] (trans : ∀ a b c, le a b → le b c → le a c)
    (total : ∀ a b, le a b ∨ le b a) {table : List Row} {matched : Row → Bool} {lead : Row}
    (listed : lead ∈ table.filter matched) :
    ∃ before after, SqliteGraphStore.Selects table matched le (before ++ lead :: after) ∧
      ∀ row ∈ before, ¬ le lead row := by
  let others := (table.filter matched).erase lead
  have trans' : ∀ a b c, decide (le a b) → decide (le b c) → decide (le a c) := by
    simpa using trans
  have total' : ∀ a b, (decide (le a b) || decide (le b a)) = true := by simpa using total
  obtain ⟨before, after, sorted, -, below⟩ := List.mergeSort_cons trans' total' lead others
  refine ⟨before, after, ⟨?_, ?_⟩, ?_⟩
  · rw [← sorted]
    exact (List.mergeSort_perm _ _).trans (List.perm_cons_erase listed).symm
  · rw [← sorted]
    simpa using List.pairwise_mergeSort trans' total' (lead :: others)
  · simpa using below

end Possible

/-- The order of `ORDER BY path, line` is total. -/
theorem path_line_total (a b : RefRow) : (a.path < b.path ∨ a.path = b.path ∧ a.line ≤ b.line) ∨
    (b.path < a.path ∨ b.path = a.path ∧ b.line ≤ a.line) := by
  rcases lt_trichotomy a.path b.path with before | same | after
  · exact .inl (.inl before)
  · rcases Int64.le_total a.line b.line with below | above
    · exact .inl (.inr ⟨same, below⟩)
    · exact .inr (.inr ⟨same.symm, above⟩)
  · exact .inr (.inl after)

theorem path_line_trans (a b c : RefRow)
    (first : a.path < b.path ∨ a.path = b.path ∧ a.line ≤ b.line)
    (second : b.path < c.path ∨ b.path = c.path ∧ b.line ≤ c.line) :
    a.path < c.path ∨ a.path = c.path ∧ a.line ≤ c.line := by
  rcases first with before | ⟨same, below⟩
  · rcases second with before' | ⟨same', -⟩
    · exact .inl (before.trans before')
    · exact .inl (same' ▸ before)
  · rcases second with before' | ⟨same', below'⟩
    · exact .inl (same ▸ before')
    · exact .inr ⟨same.trans same', Int64.le_trans below below'⟩

/-- The import row may be the first of its line that the store answers. -/
theorem exists_answers (db : SqliteGraphStore) {path : String} {lead : ImportRow}
    (listed : lead ∈ db.imports.filter (·.path = path)) :
    ∃ sql before after, db.Answers sql ∧ (∀ row ∈ before, ¬ lead.line ≤ row.line) ∧
      (before ++ lead :: after).Perm (db.imports.filter (·.path = path)) ∧
      sql.importsInFile path = (before ++ lead :: after).map ImportRow.read := by
  have line_total : ∀ a b : ImportRow, a.line ≤ b.line ∨ b.line ≤ a.line :=
    fun a b => Int64.le_total a.line b.line
  have line_trans : ∀ a b c : ImportRow, a.line ≤ b.line → b.line ≤ c.line → a.line ≤ c.line :=
    fun a b c => Int64.le_trans
  have path_total : ∀ a b : SymbolRow, a.path ≤ b.path ∨ b.path ≤ a.path :=
    fun a b => le_total a.path b.path
  have path_trans : ∀ a b c : SymbolRow, a.path ≤ b.path → b.path ≤ c.path → a.path ≤ c.path :=
    fun a b c => le_trans
  obtain ⟨before, after, selected, below⟩ := exists_selects_first line_trans line_total listed
  have imports : ∀ other, ∃ rows, SqliteGraphStore.Selects db.imports (·.path = other)
      (fun a b => a.line ≤ b.line) rows ∧ (other = path → rows = before ++ lead :: after) := by
    intro other
    by_cases same : other = path
    · subst same
      exact ⟨_, selected, fun _ => rfl⟩
    · obtain ⟨rows, answered⟩ := exists_selects line_trans line_total db.imports (·.path = other)
      exact ⟨rows, answered, fun here => absurd here same⟩
  choose imports answered at_path using imports
  choose defs defined using fun name =>
    exists_selects path_trans path_total db.symbols (·.name = name)
  choose refs referenced using fun name =>
    exists_selects path_line_trans path_line_total db.refs (·.name = name)
  obtain ⟨symbols, all_symbols⟩ := exists_selects path_trans path_total db.symbols fun _ => true
  obtain ⟨references, all_refs⟩ :=
    exists_selects path_line_trans path_line_total db.refs fun _ => true
  let sql : GraphStore :=
    { symbolsInFile := fun path => (db.symbols.filter (·.path = path)).filterMap SymbolRow.read
      definitions := fun name => (defs name).filterMap SymbolRow.located
      referencesTo := fun name => (refs name).map RefRow.located
      importsInFile := fun path => (imports path).map ImportRow.read
      callersOf := fun name => ascending
        ((db.refs.filter fun r => r.name = name ∧ r.kind ≠ "value").filterMap RefRow.fromFn)
      callees := fun name => ascending
        ((db.refs.filter fun r => r.fromFn = some name ∧ r.kind ≠ "value").map RefRow.name)
      allSymbols := symbols.filterMap SymbolRow.located
      allReferences := references.map RefRow.located }
  refine ⟨sql, before, after, ?_, below, selected.1, ?_⟩
  · exact
      { symbolsInFile := fun path => ⟨_, ⟨.refl _, List.pairwise_of_forall fun _ _ => trivial⟩, rfl⟩
        importsInFile := fun path => ⟨imports path, answered path, rfl⟩
        definitions := fun name => ⟨defs name, defined name, rfl⟩
        referencesTo := fun name => ⟨refs name, referenced name, rfl⟩
        callersOf := fun _ => rfl
        callees := fun _ => rfl
        allSymbols := ⟨symbols, all_symbols, rfl⟩
        allReferences := ⟨references, all_refs, rfl⟩ }
  · exact congrArg (·.map ImportRow.read) (at_path path rfl)

section Agreement
variable {mem : InMemoryGraphStore} {db : SqliteGraphStore}

/-- The same resolutions resolve each reference the same way. -/
theorem SameAnswers.resolve {mem sql : GraphStore} (same : SameAnswers mem sql) {name : String}
    {located : Located Reference} (listed : located ∈ mem.referencesTo name) :
    sql.resolve name located = mem.resolve name located := by
  have there : sql.resolve name located ∈ resolveReferencesTo sql name :=
    List.mem_map_of_mem ((same.referencesTo name).mem_iff.mpr listed)
  obtain ⟨other, -, resolved⟩ := List.mem_map.mp ((same.resolved name).mem_iff.mp there)
  have reference : other = located := congrArg ResolvedReference.reference resolved
  rw [← resolved, reference]

/-- What both stores leave to imports has the same target by either list of them. -/
theorem SameAnswers.importedTarget_eq {mem sql : GraphStore} (same : SameAnswers mem sql)
    {name : String} {located : Located Reference} (left : LeftToImports mem name located) :
    importedTarget (sql.importsInFile located.path) name located.path
        (defPaths (mem.definitions name)) =
      importedTarget (mem.importsInFile located.path) name located.path
        (defPaths (mem.definitions name)) := by
  have resolved := same.resolve left.listed
  rw [(left.sameRows same.toSameRows).resolve, left.resolve, same.toSameRows.defPaths] at resolved
  revert resolved
  cases importedTarget (sql.importsInFile located.path) name located.path
      (defPaths (mem.definitions name)) <;>
    cases importedTarget (mem.importsInFile located.path) name located.path
      (defPaths (mem.definitions name)) <;> simp

/-- If every answer agrees, so do the imports that may come first. -/
theorem Filing.importsAgree (filing : Filing mem db) (plain : mem.Plain)
    (always : ∀ sql, db.Answers sql → SameAnswers mem.queries sql) :
    ImportsAgree mem.queries := by
  intro name located left first i found member named least
  have row : ImportRow.of located.path i ∈ db.imports.filter (·.path = located.path) := by
    rw [filing.importRows]
    exact List.mem_map_of_mem member
  obtain ⟨sql, before, after, answers, below, perm, listed⟩ := exists_answers db row
  have target := (always sql answers).importedTarget_eq left
  rw [filing.importRows] at perm
  have there : (sql.importsInFile located.path).find? (·.name = name) = some i := by
    rw [List.find?_eq_some_iff_append]
    refine ⟨decide_eq_true named, before.map ImportRow.read, after.map ImportRow.read, ?_, ?_⟩
    · rw [listed, List.map_append, List.map_cons, ImportRow.read_of _ (plain.listed member)]
    · intro j earlier
      obtain ⟨row, in_before, rfl⟩ := List.mem_map.mp earlier
      have inside := perm.mem_iff.mp (List.mem_append_left _ in_before)
      obtain ⟨j, member', rfl⟩ := List.mem_map.mp inside
      rw [ImportRow.read_of _ (plain.listed member')]
      have other : j.name ≠ name := fun same => below _ in_before
        ((line_le_iff (plain.listed member) (plain.listed member')).mpr (least j member' same))
      simpa using other
  rw [Graph.importedTarget_eq, Graph.importedTarget_eq, there, found] at target
  exact target

end Agreement

/-- After any changes the database is a coherent store, so that its impact walks reach what
they should and count as `GraphStore.Coherent.impact_counts` says. -/
theorem coherent_run {ops : List GraphOp} (plain : ∀ op ∈ ops, op.Plain) {sql : GraphStore}
    (answers : (SqliteGraphStore.run ops).Answers sql) : sql.Coherent :=
  ((filing_run ops).sameRows (plain_run plain) answers).coherent
    (InMemoryGraphStore.run ops).coherent

/-- After any changes all queries of the two stores answer alike, whatever order SQL leaves
open, exactly where the imports agree. -/
theorem sqlite_agrees_iff {ops : List GraphOp} (plain : ∀ op ∈ ops, op.Plain) :
    (∀ sql, (SqliteGraphStore.run ops).Answers sql →
      SameAnswers (InMemoryGraphStore.run ops).queries sql) ↔
        ImportsAgree (InMemoryGraphStore.run ops).queries := by
  have filing := filing_run ops
  have held := plain_run plain
  constructor
  · exact filing.importsAgree held
  · intro agree sql answers
    exact agree.sameAnswers filing held answers

section Unordered

/-- A file that defines the name. -/
def defining (name : String) : CodeGraph where
  symbols := [⟨name, .function, 1, 1, none⟩]
  references := []
  imports := []

/-- A file that imports `make` and calls it. -/
def importing (imports : List Import) : CodeGraph where
  symbols := []
  references := [⟨"make", some "main", 3, .free, none, .function⟩]
  imports := imports

/-- Two files define what a third imports and calls. -/
def importingView (imports : List Import) : List GraphOp :=
  [.insert "model.py" (defining "make"), .insert "other.py" (defining "make"),
    .insert "app.py" (importing imports)]

def importModel : Import := ⟨"make", ["model"], 0, 2⟩

def importOther : Import := ⟨"make", ["other"], 0, 1⟩

theorem importing_plain {imports : List Import} (plain : ∀ i ∈ imports, i.Plain) :
    ∀ op ∈ importingView imports, op.Plain := by
  simpa [importingView, GraphOp.Plain, defining, importing] using plain

theorem importModel_plain : importModel.Plain := by
  simp [Import.Plain, importModel]

theorem importOther_plain : importOther.Plain := by
  simp [Import.Plain, importOther]

/-- The later of two imports is listed first. -/
theorem unordered_left : LeftToImports (InMemoryGraphStore.run
    (importingView [importModel, importOther])).queries "make"
      ⟨"app.py", ⟨"make", some "main", 3, .free, none, .function⟩⟩ where
  listed := by decide +kernel
  unowned := rfl
  foreign := by decide +kernel
  several := by decide +kernel
  no_method := by decide

/-- One store takes the import that is listed first, the other that of the lowest line. -/
theorem unordered_imports_disagree : ¬ ∀ ops : List GraphOp, (∀ op ∈ ops, op.Plain) →
    ∀ sql, (SqliteGraphStore.run ops).Answers sql →
      SameAnswers (InMemoryGraphStore.run ops).queries sql := by
  intro claimed
  have plain : ∀ op ∈ importingView [importModel, importOther], op.Plain :=
    importing_plain (by simp [importModel_plain, importOther_plain])
  have agree := (filing_run _).importsAgree (plain_run plain) (claimed _ plain)
  have same := agree "make" _ unordered_left importModel importOther (by decide +kernel)
    (by decide +kernel) rfl (by decide +kernel)
  revert same
  decide +kernel

theorem single_import_agrees : ∃ sql,
    (SqliteGraphStore.run (importingView [importModel])).Answers sql ∧
      SameAnswers (InMemoryGraphStore.run (importingView [importModel])).queries sql := by
  have plain : ∀ op ∈ importingView [importModel], op.Plain :=
    importing_plain (by simp [importModel_plain])
  have only : ∀ path, ∀ i ∈ (InMemoryGraphStore.run
      (importingView [importModel])).queries.importsInFile path, i = importModel := by
    intro path i listed
    simp only [importingView, InMemoryGraphStore.run, InMemoryGraphStore.perform,
      InMemoryGraphStore.insert, InMemoryGraphStore.queries, InMemoryGraphStore.new,
      List.foldl_cons, List.foldl_nil, Std.ExtTreeMap.getElem?_insert] at listed
    split at listed
    · simpa [importing] using listed
    · split at listed
      · simp [defining] at listed
      · split at listed
        · simp [defining] at listed
        · simp at listed
  have row : ImportRow.of "app.py" importModel ∈ (SqliteGraphStore.run
      (importingView [importModel])).imports.filter (·.path = "app.py") := by decide +kernel
  obtain ⟨sql, -, -, answers, -⟩ := exists_answers _ row
  refine ⟨sql, answers, (sqlite_agrees_iff plain).mpr ?_ sql answers⟩
  intro name located left first i found member named least
  rw [only _ i member, only _ first (List.mem_of_find?_eq_some found)]

end Unordered

end Gonzalo.Graph
