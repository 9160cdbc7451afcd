import Gonzalo.Graph.Store

/-!
# Structural diff between two views

`gonzalo-graph/src/diff.rs`: what one view adds to another and what it removes, by keys
that leave the lines out.
-/

set_option autoImplicit false

namespace Gonzalo.Graph

/-- The difference between two views. -/
structure GraphDiff where
  addedSymbols : List (Located Symbol)
  removedSymbols : List (Located Symbol)
  addedReferences : List (Located Reference)
  removedReferences : List (Located Reference)
  deriving DecidableEq, Repr

/-- `GraphDiff::is_empty`. -/
def GraphDiff.isEmpty (self : GraphDiff) : Bool :=
  self.addedSymbols.isEmpty && self.removedSymbols.isEmpty && self.addedReferences.isEmpty &&
    self.removedReferences.isEmpty

/-- The difference read the other way. -/
def GraphDiff.mirror (self : GraphDiff) : GraphDiff :=
  { addedSymbols := self.removedSymbols
    removedSymbols := self.addedSymbols
    addedReferences := self.removedReferences
    removedReferences := self.addedReferences }

def symbolKey (l : Located Symbol) : String × String × SymbolKind :=
  (l.path, l.item.name, l.item.kind)

def referenceKey (l : Located Reference) : String × Option String × String :=
  (l.path, l.item.fromName, l.item.name)

section Keys
variable {α κ : Type} [DecidableEq κ]

/-- The filter of `dedup_by_key` with the keys it has seen. -/
def dedupFrom (keep : α → Bool) (key : α → κ) : Finset κ → List α → List α
  | _, [] => []
  | seen, item :: items =>
    if keep item ∧ key item ∉ seen then item :: dedupFrom keep key (insert (key item) seen) items
    else dedupFrom keep key seen items

/-- Keep items matching `keep`, deduplicated by `key` (first occurrence wins). -/
def dedupByKey (items : List α) (keep : α → Bool) (key : α → κ) : List α :=
  dedupFrom keep key ∅ items

/-- The items whose key no item of the other list has. -/
def missingFrom (key : α → κ) (other items : List α) : List α :=
  dedupByKey items (fun l => key l ∉ (other.map key).toFinset) key

end Keys

/-- `diff`: what view `b` adds to view `a` and what it removes. -/
def diff (a b : GraphStore) : GraphDiff :=
  { addedSymbols := missingFrom symbolKey a.allSymbols b.allSymbols
    removedSymbols := missingFrom symbolKey b.allSymbols a.allSymbols
    addedReferences := missingFrom referenceKey a.allReferences b.allReferences
    removedReferences := missingFrom referenceKey b.allReferences a.allReferences }

/-! ## Keys that are missing -/

section Keys
variable {α κ : Type} [DecidableEq κ] {keep : α → Bool} {key : α → κ}

theorem dedupFrom_sublist (seen : Finset κ) (items : List α) :
    (dedupFrom keep key seen items).Sublist items := by
  induction items generalizing seen with
  | nil => exact List.Sublist.refl _
  | cons item items ih =>
    rw [dedupFrom]
    split
    · exact (ih _).cons_cons item
    · exact (ih _).cons item

/-- The keys that stay are those of the kept items that were not seen before. -/
theorem mem_keys_dedupFrom {seen : Finset κ} {items : List α} {k : κ} :
    k ∈ (dedupFrom keep key seen items).map key ↔
      k ∉ seen ∧ ∃ item ∈ items, keep item ∧ key item = k := by
  induction items generalizing seen with
  | nil => simp [dedupFrom]
  | cons item items ih =>
    rw [dedupFrom]
    split
    next kept =>
      rw [List.map_cons, List.mem_cons, ih]
      constructor
      · rintro (rfl | ⟨fresh, found, member, held⟩)
        · exact ⟨kept.2, item, List.mem_cons_self, kept.1, rfl⟩
        · exact ⟨fun old => fresh (Finset.mem_insert_of_mem old), found,
            List.mem_cons_of_mem _ member, held⟩
      · rintro ⟨fresh, found, member, held⟩
        by_cases same : k = key item
        · exact .inl same
        · refine .inr ⟨?_, found, ?_, held⟩
          · rw [Finset.mem_insert, not_or]
            exact ⟨same, fresh⟩
          · rcases List.mem_cons.mp member with rfl | later
            · exact absurd held.2.symm same
            · exact later
    next dropped =>
      rw [ih]
      constructor
      · rintro ⟨fresh, found, member, held⟩
        exact ⟨fresh, found, List.mem_cons_of_mem _ member, held⟩
      · rintro ⟨fresh, found, member, held⟩
        rcases List.mem_cons.mp member with rfl | later
        · exact absurd ⟨held.1, held.2 ▸ fresh⟩ dropped
        · exact ⟨fresh, found, later, held⟩

theorem nodup_dedupFrom (seen : Finset κ) (items : List α) :
    ((dedupFrom keep key seen items).map key).Nodup := by
  induction items generalizing seen with
  | nil => exact List.nodup_nil
  | cons item items ih =>
    rw [dedupFrom]
    split
    · rw [List.map_cons, List.nodup_cons]
      refine ⟨fun again => ?_, ih _⟩
      exact (mem_keys_dedupFrom.mp again).1 (Finset.mem_insert_self _ _)
    · exact ih _

theorem mem_keys_missingFrom {other items : List α} {k : κ} :
    k ∈ (missingFrom key other items).map key ↔ k ∈ items.map key ∧ k ∉ other.map key := by
  rw [missingFrom, dedupByKey, mem_keys_dedupFrom]
  simp only [Finset.notMem_empty, not_false_eq_true, true_and, decide_eq_true_iff,
    List.mem_toFinset]
  constructor
  · rintro ⟨item, member, missing, rfl⟩
    exact ⟨List.mem_map_of_mem member, missing⟩
  · rintro ⟨keyed, missing⟩
    obtain ⟨item, member, rfl⟩ := List.mem_map.mp keyed
    exact ⟨item, member, missing, rfl⟩

theorem missingFrom_eq_nil {other items : List α} :
    missingFrom key other items = [] ↔ ∀ k ∈ items.map key, k ∈ other.map key := by
  rw [← List.map_eq_nil_iff (f := key), List.eq_nil_iff_forall_not_mem]
  simp only [mem_keys_missingFrom, not_and_not_right]

end Keys

/-! ## The difference is exact -/

section Exact
variable {α κ : Type} [DecidableEq κ]

/-- The added and the removed items are a difference of the key sets of two lists. -/
structure ExactDifference (key : α → κ) (a b added removed : List α) : Prop where
  added_of : ∀ item ∈ added, item ∈ b
  removed_of : ∀ item ∈ removed, item ∈ a
  nodup_added : (added.map key).Nodup
  nodup_removed : (removed.map key).Nodup
  disjoint : ∀ k ∈ added.map key, k ∉ removed.map key
  turns : ((a.map key).toFinset \ (removed.map key).toFinset) ∪ (added.map key).toFinset =
    (b.map key).toFinset
  empty_iff : added = [] ∧ removed = [] ↔ (a.map key).toFinset = (b.map key).toFinset

theorem missingFrom_exact (key : α → κ) (a b : List α) :
    ExactDifference key a b (missingFrom key a b) (missingFrom key b a) where
  added_of _ member := (dedupFrom_sublist _ _).subset member
  removed_of _ member := (dedupFrom_sublist _ _).subset member
  nodup_added := nodup_dedupFrom _ _
  nodup_removed := nodup_dedupFrom _ _
  disjoint k added removed :=
    (mem_keys_missingFrom.mp added).2 (mem_keys_missingFrom.mp removed).1
  turns := by
    ext k
    simp only [Finset.mem_union, Finset.mem_sdiff, List.mem_toFinset, mem_keys_missingFrom]
    tauto
  empty_iff := by
    rw [missingFrom_eq_nil, missingFrom_eq_nil, Finset.ext_iff]
    simp only [List.mem_toFinset]
    constructor
    · exact fun ⟨back, forth⟩ k => ⟨forth k, back k⟩
    · exact fun same => ⟨fun k => (same k).mpr, fun k => (same k).mp⟩

end Exact

theorem GraphDiff.isEmpty_iff (self : GraphDiff) :
    self.isEmpty ↔ (self.addedSymbols = [] ∧ self.removedSymbols = []) ∧
      self.addedReferences = [] ∧ self.removedReferences = [] := by
  simp only [isEmpty, Bool.and_eq_true, List.isEmpty_iff, and_assoc]

/-- The diff of two views is the exact difference of their symbol keys and of their
reference keys, the diff the other way is its mirror image, and it is empty exactly when
the two views have the same keys. -/
theorem diff_exact (a b : GraphStore) :
    ExactDifference symbolKey a.allSymbols b.allSymbols (diff a b).addedSymbols
        (diff a b).removedSymbols ∧
      ExactDifference referenceKey a.allReferences b.allReferences (diff a b).addedReferences
        (diff a b).removedReferences ∧
      diff b a = (diff a b).mirror ∧
      ((diff a b).isEmpty ↔
        (a.allSymbols.map symbolKey).toFinset = (b.allSymbols.map symbolKey).toFinset ∧
        (a.allReferences.map referenceKey).toFinset =
          (b.allReferences.map referenceKey).toFinset) := by
  have symbols := missingFrom_exact symbolKey a.allSymbols b.allSymbols
  have references := missingFrom_exact referenceKey a.allReferences b.allReferences
  refine ⟨symbols, references, rfl, ?_⟩
  rw [GraphDiff.isEmpty_iff, ← symbols.empty_iff, ← references.empty_iff]
  rfl

end Gonzalo.Graph
