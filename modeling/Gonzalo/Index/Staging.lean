import Gonzalo.Index.Outcome

/-!
# What a run stages

The rows of a path after staging is applied depend on the last slice inserted for it and on
whether it is removed; inserts come before removes, so a path that is both has no rows. Each
driver ends with entries and staging that agree path by path, as long as git reports no
path that it also ignores.
-/

set_option autoImplicit false

namespace Gonzalo.Index
open Gonzalo.Core Gonzalo.Graph Gonzalo.Lib

/-! ## Applying it -/

/-- The slice that was inserted last at the path. -/
def GraphStaging.slice (self : GraphStaging) (path : String) : Option Graph.CodeGraph :=
  ((self.inserts.filter fun insert => insert.1 = path).getLast?).map Prod.snd

/-- What staging makes of a path that has these rows. -/
def GraphStaging.rows (self : GraphStaging) (path : String) (held : Option Graph.CodeGraph) :
    Option Graph.CodeGraph :=
  if path ∈ self.removes then none else (self.slice path).or held

@[simp] theorem GraphStaging.slice_nil (removes : List String) (path : String) :
    (GraphStaging.mk [] removes).slice path = none := rfl

theorem GraphStaging.slice_append (inserts : List (String × Graph.CodeGraph))
    (removes : List String) (rel : String) (slice : Graph.CodeGraph) (path : String) :
    (GraphStaging.mk (inserts ++ [(rel, slice)]) removes).slice path =
      if rel = path then some slice else (GraphStaging.mk inserts removes).slice path := by
  unfold GraphStaging.slice
  by_cases here : rel = path
  · simp [here]
  · simp [here]

/-- The staged changes, in the order they are applied. -/
def GraphStaging.ops (self : GraphStaging) : List GraphOp :=
  (self.inserts.map fun insert => .insert insert.1 insert.2) ++ self.removes.map .removePath

theorem GraphStaging.apply_eq (self : GraphStaging) (graph : SqliteGraphStore) :
    self.apply graph = self.ops.foldl SqliteGraphStore.perform graph := by
  rw [GraphStaging.ops, List.foldl_append, List.foldl_map, List.foldl_map]
  rfl

theorem filing_foldl {mem : InMemoryGraphStore} {db : SqliteGraphStore} (filing : Filing mem db)
    (ops : List GraphOp) : Filing (ops.foldl InMemoryGraphStore.perform mem)
      (ops.foldl SqliteGraphStore.perform db) := by
  induction ops generalizing mem db with
  | nil => exact filing
  | cons op rest ih => exact ih (filing.perform op)

theorem slices_inserts (inserts : List (String × Graph.CodeGraph)) (removes : List String)
    (mem : InMemoryGraphStore) (path : String) :
    ((inserts.map fun insert => GraphOp.insert insert.1 insert.2).foldl
        InMemoryGraphStore.perform mem).slices[path]? =
      ((GraphStaging.mk inserts removes).slice path).or mem.slices[path]? := by
  induction inserts using List.reverseRecOn with
  | nil => rfl
  | append_singleton inserts insert ih =>
    obtain ⟨rel, slice⟩ := insert
    rw [List.map_append, List.foldl_append, GraphStaging.slice_append]
    simp only [List.map_cons, List.map_nil, List.foldl_cons, List.foldl_nil,
      InMemoryGraphStore.perform, InMemoryGraphStore.insert, Std.ExtTreeMap.getElem?_insert,
      Std.LawfulEqCmp.compare_eq_iff_eq]
    split
    · rfl
    · exact ih

theorem slices_removes (removes : List String) (mem : InMemoryGraphStore) (path : String) :
    ((removes.map GraphOp.removePath).foldl InMemoryGraphStore.perform mem).slices[path]? =
      if path ∈ removes then none else mem.slices[path]? := by
  induction removes generalizing mem with
  | nil => simp
  | cons rel rest ih =>
    rw [List.map_cons, List.foldl_cons, ih]
    simp only [InMemoryGraphStore.perform, Std.ExtTreeMap.getElem?_erase,
      Std.LawfulEqCmp.compare_eq_iff_eq, List.mem_cons, eq_comm (a := rel)]
    by_cases here : path = rel
    · simp [here]
    · simp [here]

/-- Staging is applied path by path. -/
theorem filing_apply {mem : InMemoryGraphStore} {db : SqliteGraphStore} (filing : Filing mem db)
    (staging : GraphStaging) : ∃ mem', Filing mem' (staging.apply db) ∧
      ∀ path, mem'.slices[path]? = staging.rows path mem.slices[path]? := by
  refine ⟨_, staging.apply_eq db ▸ filing_foldl filing staging.ops, fun path => ?_⟩
  rw [GraphStaging.ops, List.foldl_append, slices_removes,
    slices_inserts staging.inserts staging.removes, GraphStaging.rows]

/-! ## Entries and staging together -/

section Agreement

variable [Blake3] [SliceJson]

/-- The entries are those of the staged slices, or of the manifest that the run found. -/
structure Stages (current : Manifest) (view : DesiredView) : Prop where
  kept : ∀ path hash, view.entries[path]? = some hash → path ∉ view.staging.removes
  taken : ∀ path slice, view.staging.slice path = some slice →
    path ∈ view.staging.removes ∨ view.entries[path]? = some (sliceHash slice)
  carried : ∀ path, view.staging.slice path = none →
    view.entries[path]? = none ∨ view.entries[path]? = current.entries[path]?

omit [Blake3] [SliceJson] in
theorem mem_deleted {current : Manifest} {desired : Std.ExtTreeMap String ContentHash compare}
    {path : String} : path ∈ (current.reconcile desired).deleted ↔
      current.entries[path]? ≠ none ∧ desired[path]? = none := by
  simp only [Manifest.reconcile, List.mem_filter, Std.ExtTreeMap.mem_keys,
    Std.ExtTreeMap.mem_iff_isSome_getElem?, Std.ExtTreeMap.contains_eq_isSome_getElem?]
  cases current.entries[path]? <;> cases desired[path]? <;> simp

/-- The rows of the view file one slice for each entry of the manifest, and no others. -/
def Tracks (m : Manifest) (db : SqliteGraphStore) : Prop :=
  ∃ mem : InMemoryGraphStore, Filing mem db ∧
    ∀ path : String, (mem.slices[path]?).map sliceHash = m.entries[path]?

/-- What a run stages, with the removals that reconciling adds. -/
def DesiredView.staged (view : DesiredView) (current : Manifest) : GraphStaging :=
  { view.staging with
    removes := view.staging.removes ++ (current.reconcile view.entries).deleted }

/-- The rows of a path after the run are those of its entry. -/
theorem Stages.rows {current : Manifest} {view : DesiredView} (stages : Stages current view)
    {path : String} {held : Option Graph.CodeGraph}
    (tracked : held.map sliceHash = current.entries[path]?) :
    ((view.staged current).rows path held).map sliceHash = view.entries[path]? := by
  have slice : (view.staged current).slice path = view.staging.slice path := rfl
  rw [GraphStaging.rows, slice]
  simp only [DesiredView.staged, List.mem_append, mem_deleted]
  cases entry : view.entries[path]? with
  | some hash =>
    have here := stages.kept path hash entry
    rw [if_neg (by simp [here])]
    cases staged : view.staging.slice path with
    | some slice =>
      rcases stages.taken path slice staged with gone | same
      · exact absurd gone here
      · exact same.symm.trans entry
    | none =>
      rcases stages.carried path staged with none_ | same
      · exact absurd (none_.symm.trans entry) (by simp)
      · rw [Option.none_or, tracked, ← same, entry]
  | none =>
    split
    · rfl
    next present =>
      rw [not_or] at present
      cases staged : view.staging.slice path with
      | some slice =>
        rcases stages.taken path slice staged with gone | same
        · exact absurd gone present.1
        · exact absurd (same.symm.trans entry) (by simp)
      | none =>
        have absent : current.entries[path]? = none := by
          by_contra there
          exact present.2 ⟨there, rfl⟩
        rw [Option.none_or, tracked, absent]

/-- A run whose entries and staging agree keeps the graph to the manifest. -/
theorem Stages.tracks {current : Manifest} {view : DesiredView} (stages : Stages current view)
    {db : SqliteGraphStore} (tracks : Tracks current db) :
    Tracks ⟨view.entries⟩ ((view.staged current).apply db) := by
  obtain ⟨mem, filing, tracked⟩ := tracks
  obtain ⟨mem', filing', rows⟩ := filing_apply filing (view.staged current)
  refine ⟨mem', filing', fun path => ?_⟩
  rw [rows path]
  exact stages.rows (tracked path)

end Agreement

end Gonzalo.Index
