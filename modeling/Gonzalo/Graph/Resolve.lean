import Gonzalo.Core.Segments
import Gonzalo.Graph.Store

/-!
# Name resolution

`gonzalo-graph/src/resolve.rs`: each reference is attributed to the file of the definition
it most likely means. A `BTreeSet` of paths is the ascending list of them.
-/

set_option autoImplicit false

namespace Gonzalo.Graph
open Gonzalo.Core Gonzalo.Lib

/-! ## Paths and modules -/

def pathComponents (path : String) : List String := (splitAt path '/').filter (· ≠ "")

/-- Whether two path segments name the same thing, treating `-` and `_` alike. -/
def sameSegment (component segment : String) : Bool :=
  (asBytes component).length = (asBytes segment).length &&
    ((asBytes component).zip (asBytes segment)).all fun (a, b) =>
      a = b || (a = 0x2D || a = 0x5F) && (b = 0x2D || b = 0x5F)

/-- The components of a file, the last one without its extension and left out where its
stem is one of those that add no segment. -/
def stemmed (silent components : List String) : List String :=
  match components.getLast? with
  | none => components
  | some last =>
    let stem := ((rsplitOnce last '.').map Prod.fst).getD last
    if stem ∈ silent then components.dropLast else components.dropLast ++ [stem]

/-- The directory a relative import points at: one level up per dot beyond the first. -/
def relativeAnchor (fromPath : String) (depth : UInt64) (segments : List String) :
    Option (List String) :=
  let components := pathComponents fromPath
  -- the file itself is dropped, then `for _ in 1..depth` drops one more each time
  let levels := 1 + (depth.toNat - 1)
  if components.length < levels then none
  else some (components.take (components.length - levels) ++ segments)

/-- Whether `file` sits at or under the package directory `anchor`. -/
def pathUnder (file : String) (anchor : List String) : Bool :=
  let components := stemmed ["__init__"] (pathComponents file)
  anchor.length ≤ components.length &&
    (components.zip anchor).all fun (component, own) => sameSegment component own

/-- Whether the path components of `file` end with the module segments. -/
def pathEndsWithModule (file : String) (segments : List String) : Bool :=
  let components := stemmed ["mod", "lib", "main", "__init__", "index"]
    ((pathComponents file).filter (· ≠ "src"))
  segments.length ≤ components.length &&
    ((components.drop (components.length - segments.length)).zip segments).all
      fun (component, own) => sameSegment component own

/-- How many leading components two paths share. -/
def sharedComponents (fromPath path : String) : Nat :=
  (((pathComponents path).zip (pathComponents fromPath)).takeWhile
    fun (component, own) => sameSegment component own).length

/-- The one candidate sharing the longest path prefix with `fromPath`. -/
def nearestTo (candidates : List String) (fromPath : String) : Option String :=
  match (candidates.map (sharedComponents fromPath)).max? with
  | none => none
  | some best =>
    if best = 0 then none
    else
      match candidates.filter fun path => sharedComponents fromPath path = best with
      | [only] => some only
      | _ => none

/-- The match on the candidates an import fits. -/
def settle (matched : List String) (fromPath : String) : Option String :=
  match matched with
  | [] => none
  | [only] => some only
  | several => nearestTo several fromPath

/-- The single candidate covered by one of this file's whole-file imports. -/
def includedTarget (imports : List Import) (fromPath : String) (candidates : List String) :
    Option String :=
  let included := imports.filter fun i => i.bringsWholeFile && !i.path.isEmpty
  if included.isEmpty then none
  else
    settle (candidates.filter fun path => included.any fun i => pathEndsWithModule path i.path)
      fromPath

/-- The single candidate an import in the referencing file points at. -/
def importedTarget (imports : List Import) (name fromPath : String) (candidates : List String) :
    Option String :=
  match imports.find? (·.name = name) with
  | none => includedTarget imports fromPath candidates
  | some found =>
    if 0 < found.depth then
      match relativeAnchor fromPath found.depth found.path with
      | none => none
      | some anchor => settle (candidates.filter (pathUnder · anchor)) fromPath
    else if found.path.isEmpty then none
    else settle (candidates.filter (pathEndsWithModule · found.path)) fromPath

/-! ## The cascade -/

/-- How a reference was resolved to a definition. -/
inductive Resolution where
  | qualified | «local» | uniqueGlobal | imported | ambiguous | receiverUnknown | unresolved
  deriving DecidableEq, Repr

/-- A reference resolved (best-effort) to the path of the symbol it refers to. -/
structure ResolvedReference where
  reference : Located Reference
  target : Option String
  resolution : Resolution
  deriving DecidableEq, Repr

/-- The files that define the name. -/
def defPaths (defs : List (Located Symbol)) : List String := ascending (defs.map Located.path)

/-- The files that define the name with the qualifier as its owner. -/
def qualifiedPaths (defs : List (Located Symbol)) : Option String → List String
  | some q => ascending ((defs.filter fun d => d.item.owner = some q).map Located.path)
  | none => []

/-- The imports of a file, fetched once. -/
def fetchImports (store : GraphStore) (fetched : Std.ExtTreeMap String (List Import) compare)
    (path : String) : Std.ExtTreeMap String (List Import) compare :=
  if path ∈ fetched then fetched else fetched.insert path (store.importsInFile path)

/-- The imports of each referencing file, fetched only where the name is ambiguous. -/
def importsByPath (store : GraphStore) (paths : List String)
    (references : List (Located Reference)) : Std.ExtTreeMap String (List Import) compare :=
  if 1 < paths.length then (references.map Located.path).foldl (fetchImports store) ∅ else ∅

/-- The target of a reference and why it is that one. -/
def resolveTarget (imports : Std.ExtTreeMap String (List Import) compare)
    (defs : List (Located Symbol)) (name : String) (located : Located Reference) :
    Option String × Resolution :=
  let qualified := qualifiedPaths defs located.item.qualifier
  let paths := defPaths defs
  if qualified.length = 1 then (qualified.head?, .qualified)
  else if qualified ≠ [] then (none, .ambiguous)
  else if located.path ∈ paths then (some located.path, .local)
  else if paths = [] then (none, .unresolved)
  else if located.item.kind = .method then (none, .receiverUnknown)
  else if paths.length = 1 then (paths.head?, .uniqueGlobal)
  else
    match imports[located.path]?.bind fun found =>
        importedTarget found name located.path paths with
    | some path => (some path, .imported)
    | none => (none, .ambiguous)

/-- What `resolve_references_to` makes of one reference. -/
def GraphStore.resolve (store : GraphStore) (name : String) (located : Located Reference) :
    ResolvedReference :=
  let defs := store.definitions name
  let imports := importsByPath store (defPaths defs) (store.referencesTo name)
  let (target, resolution) := resolveTarget imports defs name located
  { reference := located, target := target, resolution := resolution }

/-- `resolve_references_to`: every reference to the name, resolved. -/
def resolveReferencesTo (store : GraphStore) (name : String) : List ResolvedReference :=
  (store.referencesTo name).map (store.resolve name)

/-- `resolved_callers_of`: what calls the name that the path defines. -/
def resolvedCallersOf (store : GraphStore) (definingPath name : String) : List String :=
  ascending (((resolveReferencesTo store name).filter (·.target = some definingPath)).filterMap
    fun resolved => resolved.reference.item.fromName)

/-! ## What a reference is resolved to -/

theorem mem_defPaths {defs : List (Located Symbol)} {path : String} :
    path ∈ defPaths defs ↔ ∃ d ∈ defs, d.path = path := by
  rw [defPaths, mem_ascending, List.mem_map]

theorem mem_qualifiedPaths {defs : List (Located Symbol)} {q path : String} :
    path ∈ qualifiedPaths defs (some q) ↔
      ∃ d ∈ defs, d.item.owner = some q ∧ d.path = path := by
  simp only [qualifiedPaths, mem_ascending, List.mem_map, List.mem_filter, decide_eq_true_iff,
    and_assoc]

/-- The owners of a qualifier are among the definitions. -/
theorem qualifiedPaths_subset (defs : List (Located Symbol)) (qualifier : Option String) :
    qualifiedPaths defs qualifier ⊆ defPaths defs := by
  intro path member
  cases qualifier with
  | none => exact absurd member List.not_mem_nil
  | some q =>
    obtain ⟨d, listed, -, at_path⟩ := mem_qualifiedPaths.mp member
    exact mem_defPaths.mpr ⟨d, listed, at_path⟩

theorem nodup_qualifiedPaths (defs : List (Located Symbol)) (qualifier : Option String) :
    (qualifiedPaths defs qualifier).Nodup := by
  cases qualifier with
  | none => exact List.nodup_nil
  | some q => exact nodup_ascending _

theorem length_qualifiedPaths_le (defs : List (Located Symbol)) (qualifier : Option String) :
    (qualifiedPaths defs qualifier).length ≤ (defPaths defs).length :=
  ((nodup_qualifiedPaths defs qualifier).subperm (qualifiedPaths_subset defs qualifier)).length_le

/-- Each file among those fetched, or still to fetch, ends up with its own imports. -/
theorem getElem?_fetchImports {store : GraphStore} {path : String} {paths : List String}
    {fetched : Std.ExtTreeMap String (List Import) compare}
    (held : ∀ path imports, fetched[path]? = some imports → imports = store.importsInFile path)
    (found : path ∈ fetched ∨ path ∈ paths) :
    (paths.foldl (fetchImports store) fetched)[path]? = some (store.importsInFile path) := by
  induction paths generalizing fetched with
  | nil =>
    have inside := found.resolve_right List.not_mem_nil
    rw [Std.ExtTreeMap.mem_iff_isSome_getElem?] at inside
    obtain ⟨imports, at_path⟩ := Option.isSome_iff_exists.mp inside
    rw [List.foldl_nil, at_path, held _ _ at_path]
  | cons first rest ih =>
    rw [List.foldl_cons, fetchImports]
    split
    next old =>
      apply ih held
      rcases found with inside | member
      · exact .inl inside
      · rcases List.mem_cons.mp member with rfl | later
        · exact .inl old
        · exact .inr later
    next new =>
      apply ih
      · intro path imports at_path
        rw [Std.ExtTreeMap.getElem?_insert] at at_path
        split at at_path
        next same =>
          rw [Std.LawfulEqCmp.compare_eq_iff_eq] at same
          rw [← same]
          exact (Option.some.inj at_path).symm
        next other => exact held path imports at_path
      · rcases found with inside | member
        · exact .inl (Std.ExtTreeMap.mem_insert.mpr (.inr inside))
        · rcases List.mem_cons.mp member with rfl | later
          · exact .inl Std.ExtTreeMap.mem_insert_self
          · exact .inr later

/-- Where the name is ambiguous the imports of a referencing file were fetched. -/
theorem getElem?_importsByPath {store : GraphStore} {paths : List String}
    {references : List (Located Reference)} (several : 1 < paths.length) {located : Located Reference}
    (listed : located ∈ references) :
    (importsByPath store paths references)[located.path]? =
      some (store.importsInFile located.path) := by
  rw [importsByPath, if_pos several]
  apply getElem?_fetchImports
  · intro path imports at_path
    simp at at_path
  · exact .inr (List.mem_map_of_mem listed)

/-- A qualifier that no definition has as its owner is ignored. -/
theorem resolveTarget_unowned {imports : Std.ExtTreeMap String (List Import) compare}
    {defs : List (Located Symbol)} {name : String} {located other : Located Reference}
    (unowned : qualifiedPaths defs located.item.qualifier = [])
    (unowned' : qualifiedPaths defs other.item.qualifier = [])
    (path : located.path = other.path) (kind : located.item.kind = other.item.kind) :
    resolveTarget imports defs name located = resolveTarget imports defs name other := by
  simp only [resolveTarget, unowned, unowned', path, kind]

/-- A qualifier that one file owns decides. -/
theorem resolveTarget_owned {imports : Std.ExtTreeMap String (List Import) compare}
    {defs : List (Located Symbol)} {name : String} {located : Located Reference} {path : String}
    (owned : qualifiedPaths defs located.item.qualifier = [path]) :
    resolveTarget imports defs name located = (some path, .qualified) := by
  simp only [resolveTarget, owned, List.length_singleton, if_pos, List.head?_cons]

/-- A qualifier that several files own leaves the reference ambiguous. -/
theorem resolveTarget_contested {imports : Std.ExtTreeMap String (List Import) compare}
    {defs : List (Located Symbol)} {name : String} {located : Located Reference}
    (contested : 1 < (qualifiedPaths defs located.item.qualifier).length) :
    resolveTarget imports defs name located = (none, .ambiguous) := by
  have several : (qualifiedPaths defs located.item.qualifier).length ≠ 1 := by omega
  have some_owned : qualifiedPaths defs located.item.qualifier ≠ [] := by
    intro none_owned
    rw [none_owned] at contested
    exact absurd contested (by simp)
  simp only [resolveTarget, if_neg several, if_pos some_owned]

/-- Without a qualifier a name that several files define has a target in its own file or
by an import. -/
theorem resolveTarget_several {imports : Std.ExtTreeMap String (List Import) compare}
    {defs : List (Located Symbol)} {name : String} {located : Located Reference}
    (unowned : qualifiedPaths defs located.item.qualifier = [])
    (several : 1 < (defPaths defs).length) {found : List Import}
    (fetched : imports[located.path]? = some found) :
    (resolveTarget imports defs name located).1 = none ↔
      located.path ∉ defPaths defs ∧ (located.item.kind = .method ∨
        importedTarget found name located.path (defPaths defs) = none) := by
  have some_defined : defPaths defs ≠ [] := by
    intro none_defined
    rw [none_defined] at several
    exact absurd several (by simp)
  have not_sole : (defPaths defs).length ≠ 1 := by omega
  simp only [resolveTarget, unowned, List.length_nil, zero_ne_one, if_false, ne_eq,
    not_true_eq_false, some_defined, not_sole, fetched, Option.bind_some]
  by_cases own : located.path ∈ defPaths defs
  · simp [own]
  · by_cases method : located.item.kind = .method
    · simp [own, method]
    · simp only [own, method, if_false, not_false_eq_true, true_and, false_or]
      cases importedTarget found name located.path (defPaths defs) <;> simp

/-- A reference with a target was attributed to it. -/
theorem resolveTarget_attributed {imports : Std.ExtTreeMap String (List Import) compare}
    {defs : List (Located Symbol)} {name path : String} {located : Located Reference}
    (reached : (resolveTarget imports defs name located).1 = some path) :
    (resolveTarget imports defs name located).2 ≠ .ambiguous ∧
      (resolveTarget imports defs name located).2 ≠ .receiverUnknown := by
  rw [resolveTarget] at reached ⊢
  split at reached
  · simp_all
  · split at reached
    · cases reached
    · split at reached
      · simp_all
      · split at reached
        · cases reached
        · split at reached
          · cases reached
          · split at reached
            · simp_all
            · split at reached
              · simp_all
              · cases reached

/-! ## A qualifier narrows -/

/-- The reference with its qualifier left out. -/
def Located.unqualified (located : Located Reference) : Located Reference :=
  { located with item := { located.item with qualifier := none } }

@[simp] theorem Located.unqualified_path (located : Located Reference) :
    located.unqualified.path = located.path := rfl

@[simp] theorem Located.unqualified_kind (located : Located Reference) :
    located.unqualified.item.kind = located.item.kind := rfl

@[simp] theorem Located.unqualified_qualifier (located : Located Reference) :
    located.unqualified.item.qualifier = none := rfl

/-- What is resolved with less evidence is still resolved with more: to the same target
or to one in the scope of the qualifier's owner. -/
def Narrows (less more : ResolvedReference) : Prop :=
  ∀ target, less.target = some target →
    more.target = some target ∨ more.resolution = .qualified ∧ more.target.isSome

/-- At most one file has the qualifier as an owner, or the reference has no target even
without its qualifier: its own file does not define the name, and the call is a method
call or no import settles it. -/
def Uncontested (store : GraphStore) (name : String) (located : Located Reference) : Prop :=
  (qualifiedPaths (store.definitions name) located.item.qualifier).length ≤ 1 ∨
    located.path ∉ defPaths (store.definitions name) ∧ (located.item.kind = .method ∨
      importedTarget (store.importsInFile located.path) name located.path
        (defPaths (store.definitions name)) = none)

/-- A qualifier only narrows the resolution of a reference exactly where it is not
contested by several files. -/
theorem narrows_iff {store : GraphStore} {name : String} {located : Located Reference}
    (listed : located ∈ store.referencesTo name) :
    Narrows (store.resolve name located.unqualified) (store.resolve name located) ↔
      Uncontested store name located := by
  have unqualified : qualifiedPaths (store.definitions name) located.unqualified.item.qualifier =
      [] := rfl
  rw [Uncontested]
  rcases lt_or_ge 1 (qualifiedPaths (store.definitions name) located.item.qualifier).length
    with contested | settled
  · have several := contested.trans_le (length_qualifiedPaths_le _ _)
    have fetched : (importsByPath store (defPaths (store.definitions name))
        (store.referencesTo name))[located.path]? =
          some (store.importsInFile located.path) := getElem?_importsByPath several listed
    have declined := @resolveTarget_several _ _ name located.unqualified unqualified several _ fetched
    rw [Located.unqualified_path, Located.unqualified_kind] at declined
    rw [or_iff_right (by omega), Narrows]
    simp only [GraphStore.resolve, resolveTarget_contested contested]
    rw [← declined]
    constructor
    · intro narrows
      by_contra reached
      obtain ⟨target, reached⟩ := Option.ne_none_iff_exists'.mp reached
      rcases narrows target reached with none_left | ⟨other, -⟩
      · cases none_left
      · cases other
    · intro none_reached target reached
      rw [none_reached] at reached
      cases reached
  · refine iff_of_true ?_ (.inl settled)
    intro target reached
    cases owned : qualifiedPaths (store.definitions name) located.item.qualifier with
    | nil =>
      left
      rw [← reached]
      simp only [GraphStore.resolve]
      rw [@resolveTarget_unowned _ _ _ located located.unqualified owned unqualified rfl rfl]
    | cons path others =>
      rw [owned, List.length_cons] at settled
      have alone : others = [] := List.length_eq_zero_iff.mp (by omega)
      rw [alone] at owned
      right
      simp only [GraphStore.resolve, resolveTarget_owned owned]
      exact ⟨trivial, rfl⟩

/-! ## A contested owner -/

section Contested

/-- A method `get` of the type `Beta`. -/
def betaGet : Symbol :=
  { name := "get", kind := .function, startLine := 1, endLine := 1, owner := some "Beta" }

/-- The call `Beta::get()` from `main`. -/
def callBetaGet : Reference :=
  { name := "get", fromName := some "main", line := 2, kind := .free, qualifier := some "Beta"
    fromScope := .function }

/-- A file that defines `Beta::get` and calls it. -/
def callingView : InMemoryGraphStore :=
  InMemoryGraphStore.new.insert "a.rs"
    { symbols := [betaGet], references := [callBetaGet], imports := [] }

/-- Another file has a `Beta` with a `get` of its own. -/
def contestedView : InMemoryGraphStore :=
  callingView.insert "b.rs" { symbols := [betaGet], references := [], imports := [] }

theorem calling_narrows :
    Narrows (callingView.queries.resolve "get" (Located.unqualified ⟨"a.rs", callBetaGet⟩))
      (callingView.queries.resolve "get" ⟨"a.rs", callBetaGet⟩) :=
  (narrows_iff (by decide +kernel)).mpr (.inl (by decide +kernel))

/-- The call is local without its qualifier, and ambiguous with it. -/
theorem contested_declined : ¬ ∀ (store : InMemoryGraphStore) (name : String)
    (located : Located Reference), located ∈ store.queries.referencesTo name →
      Narrows (store.queries.resolve name located.unqualified)
        (store.queries.resolve name located) := by
  intro narrows
  have listed : ⟨"a.rs", callBetaGet⟩ ∈ contestedView.queries.referencesTo "get" := by
    decide +kernel
  have ignored : (contestedView.queries.resolve "get"
      (Located.unqualified ⟨"a.rs", callBetaGet⟩)).target = some "a.rs" := by decide +kernel
  have declined : (contestedView.queries.resolve "get" ⟨"a.rs", callBetaGet⟩).target = none := by
    decide +kernel
  rcases narrows contestedView "get" _ listed "a.rs" ignored with kept | ⟨-, reached⟩
  · rw [declined] at kept
    cases kept
  · rw [declined] at reached
    cases reached

end Contested

end Gonzalo.Graph
