import Gonzalo.Index.Filter
import Gonzalo.Lib.KeySort

/-!
# The walk of a source tree

`source_files` and `stale_entries` of `gonzalo-cli/src/walk.rs`. A tree is what the file
system holds while a run reads it; what `git2` says about an ignored path is a parameter.
The walk prunes directories by their own path and the incremental driver never sees a
directory, so that both take the same files is a fact about the filter.
-/

set_option autoImplicit false

namespace Gonzalo.Index
open Gonzalo.Core Gonzalo.Lib

mutual
/-- What a directory entry names. `text` is what `read_to_string` makes of it, `none` when
it fails; `other` is a symbolic link, a socket or the like. -/
inductive Node where
  | file (text : Option String)
  | other (text : Option String)
  | dir (entries : Entries)

/-- The entries of a directory, as `read_dir` lists them. -/
inductive Entries where
  | nil
  | cons (name : String) (node : Node) (rest : Entries)
end

def Entries.names : Entries → List String
  | nil => []
  | cons name _ rest => name :: rest.names

mutual
/-- The node that a path leads to. -/
def Node.find : Node → List String → Option Node
  | node, [] => some node
  | .dir entries, name :: rest => entries.find name rest
  | .file _, _ :: _ => none
  | .other _, _ :: _ => none

def Entries.find : Entries → String → List String → Option Node
  | .nil, _, _ => none
  | .cons name node rest, wanted, sub =>
    if name = wanted then node.find sub else rest.find wanted sub
end

mutual
/-- Every directory lists plain names, each once. -/
def Node.WellFormed : Node → Prop
  | .file _ => True
  | .other _ => True
  | .dir entries => entries.WellFormed

def Entries.WellFormed : Entries → Prop
  | .nil => True
  | .cons name node rest =>
    PlainName name ∧ name ∉ rest.names ∧ node.WellFormed ∧ rest.WellFormed
end

/-- `read_to_string` of the path below the root. -/
def Node.readPath (tree : Node) (path : List String) : Option String :=
  match tree.find path with
  | some (.file text) => text
  | some (.other text) => text
  | _ => none

/-- `read_to_string` of the root joined with the text of a path. -/
def Node.read (tree : Node) (rel : String) : Option String := tree.readPath (splitAt rel '/')

/-! ## Counts -/

/-- `IgnoredCounts`. -/
structure IgnoredCounts where
  files : Nat
  dirs : Nat
  deriving DecidableEq

/-- `UnindexedCounts`. -/
structure UnindexedCounts where
  files : Nat
  byExtension : Std.ExtTreeMap String Nat compare

/-- `UnindexedCounts::record`. -/
def UnindexedCounts.record (self : UnindexedCounts) (extension : Option String) :
    UnindexedCounts where
  files := self.files + 1
  byExtension := match extension with
    | some ext => self.byExtension.insert ext ((self.byExtension[ext]?).getD 0 + 1)
    | none => self.byExtension

/-- `SourceFiles`; a path is the list of its names. -/
structure SourceFiles where
  files : List (List String × Language)
  ignored : IgnoredCounts
  unindexed : UnindexedCounts

def SourceFiles.empty : SourceFiles := ⟨[], ⟨0, 0⟩, ⟨0, ∅⟩⟩

/-! ## The walk -/

/-- What decides membership: the filter, and what `git_ignores` answers. -/
structure Rules where
  filter : IndexFilter
  ignores : String → Bool

namespace Rules

/-- The path may enter the view. -/
def admits (rules : Rules) (rel : String) : Bool :=
  rules.filter.isIndexable rel && !rules.ignores rel

/-- The walk enters the directory. -/
def enters (rules : Rules) (rel : String) : Bool :=
  rules.filter.shouldDescend rel && !rules.ignores rel

/-- `stale_entries`. -/
def staleEntries (rules : Rules) (paths : List String) : List String :=
  paths.filter fun rel => !rules.filter.isIndexable rel || rules.ignores rel

/-- The walk at a regular file. -/
def visitFile (rules : Rules) (path : List String) (found : SourceFiles) : SourceFiles :=
  let ext := path.getLast?.bind extensionOfName
  match ext.bind Language.fromExtension with
  | none =>
    if rules.admits (relative path) then { found with unindexed := found.unindexed.record ext }
    else found
  | some language =>
    if rules.admits (relative path) then { found with files := found.files ++ [(path, language)] }
    else { found with ignored := { found.ignored with files := found.ignored.files + 1 } }

mutual
/-- `source_files_inner` at one entry. -/
def walkNode (rules : Rules) : Node → List String → SourceFiles → SourceFiles
  | .file _, path, found => rules.visitFile path found
  | .other _, _, found => found
  | .dir entries, path, found =>
    if rules.enters (relative path) then rules.walkEntries entries path found
    else { found with ignored := { found.ignored with dirs := found.ignored.dirs + 1 } }

/-- `source_files_inner` over the entries of a directory. -/
def walkEntries (rules : Rules) : Entries → List String → SourceFiles → SourceFiles
  | .nil, _, found => found
  | .cons name node rest, dir, found =>
    rules.walkEntries rest dir (rules.walkNode node (dir ++ [name]) found)
end

/-- `source_files`. -/
def sourceFiles (rules : Rules) (tree : Entries) : SourceFiles :=
  let found := rules.walkEntries tree [] .empty
  { found with files := byKey found.files }

end Rules

/-! ## What the walk lists -/

section Listing
variable {rules : Rules}

theorem Entries.mem_names_of_find {entries : Entries} {name : String} {sub : List String}
    {node : Node} (found : entries.find name sub = some node) : name ∈ entries.names := by
  induction entries using Entries.names.induct with
  | case1 => simp [Entries.find] at found
  | case2 own _ rest ih =>
    rw [Entries.find] at found
    split at found
    next here => exact here ▸ List.mem_cons_self
    next other => exact List.mem_cons_of_mem _ (ih found)

mutual
/-- The names on the way to a node are plain. -/
theorem Node.plain_of_find : ∀ {node found : Node} {sub : List String}, node.WellFormed →
    node.find sub = some found → ∀ name ∈ sub, PlainName name
  | _, _, [], _, _ => fun _ member => nomatch member
  | .dir entries, _, own :: rest, wellFormed, found => by
    rw [Node.WellFormed] at wellFormed
    rw [Node.find] at found
    intro name member
    obtain ⟨first, others⟩ := Entries.plain_of_find wellFormed found
    rcases List.mem_cons.mp member with rfl | later
    · exact first
    · exact others name later
  | .file _, _, _ :: _, _, found => by simp [Node.find] at found
  | .other _, _, _ :: _, _, found => by simp [Node.find] at found

theorem Entries.plain_of_find : ∀ {entries : Entries} {found : Node} {name : String}
    {sub : List String}, entries.WellFormed → entries.find name sub = some found →
    PlainName name ∧ ∀ n ∈ sub, PlainName n
  | .nil, _, _, _, _, found => by simp [Entries.find] at found
  | .cons own node rest, _, wanted, sub, wellFormed, found => by
    rw [Entries.WellFormed] at wellFormed
    rw [Entries.find] at found
    split at found
    next here => exact ⟨here ▸ wellFormed.1, Node.plain_of_find wellFormed.2.2.1 found⟩
    next other => exact Entries.plain_of_find wellFormed.2.2.2 found
end

/-- The file at the path is one the walk takes when it comes by. -/
def Takes (rules : Rules) (path : List String) (language : Language) : Prop :=
  rules.admits (relative path) = true ∧
    (path.getLast?.bind extensionOfName).bind Language.fromExtension = some language

theorem mem_visitFile {path path' : List String} {language : Language} {found : SourceFiles} :
    (path', language) ∈ (rules.visitFile path found).files ↔
      (path', language) ∈ found.files ∨ path' = path ∧ Takes rules path language := by
  simp only [Rules.visitFile, Takes]
  cases named : (path.getLast?.bind extensionOfName).bind Language.fromExtension with
  | none =>
    simp only [reduceCtorEq, and_false, or_false]
    split <;> rfl
  | some own =>
    dsimp only
    split
    next admitted =>
      rw [List.mem_append, List.mem_singleton, Prod.mk.injEq]
      simp [admitted, eq_comm]
    next declined => simp [declined]

mutual
theorem mem_walkNode : ∀ {node : Node} {at_ path : List String} {language : Language}
    {found : SourceFiles}, node.WellFormed →
    ((path, language) ∈ (rules.walkNode node at_ found).files ↔
      (path, language) ∈ found.files ∨ ∃ sub text, path = at_ ++ sub ∧
        node.find sub = some (.file text) ∧ Takes rules path language ∧
        ∀ front back, sub = front ++ back → back ≠ [] → rules.enters (relative (at_ ++ front)) = true)
  | .file text, at_, path, language, found, _ => by
    rw [Rules.walkNode, mem_visitFile]
    apply or_congr_right
    constructor
    · rintro ⟨rfl, takes⟩
      refine ⟨[], text, (List.append_nil _).symm, rfl, takes, ?_⟩
      intro front back split ends
      exact absurd (List.append_eq_nil_iff.mp split.symm).2 ends
    · rintro ⟨sub, text', rfl, leads, takes, -⟩
      cases sub with
      | nil => exact ⟨List.append_nil _, by simpa using takes⟩
      | cons name rest => simp [Node.find] at leads
  | .other text, at_, path, language, found, _ => by
    rw [Rules.walkNode]
    refine (or_iff_left ?_).symm
    rintro ⟨sub, text', rfl, leads, -⟩
    cases sub with
    | nil => simp [Node.find] at leads
    | cons name rest => simp [Node.find] at leads
  | .dir entries, at_, path, language, found, wellFormed => by
    rw [Node.WellFormed] at wellFormed
    rw [Rules.walkNode]
    split
    next entered =>
      rw [mem_walkEntries wellFormed]
      apply or_congr_right
      constructor
      · rintro ⟨name, sub, text, rfl, leads, takes, above⟩
        refine ⟨name :: sub, text, rfl, leads, takes, ?_⟩
        intro front back split ends
        cases front with
        | nil => simpa using entered
        | cons own front =>
          rw [List.cons_append, List.cons.injEq] at split
          obtain ⟨rfl, rest⟩ := split
          exact above front back rest ends
      · rintro ⟨sub, text, rfl, leads, takes, above⟩
        cases sub with
        | nil => simp [Node.find] at leads
        | cons name sub =>
          refine ⟨name, sub, text, rfl, leads, takes, ?_⟩
          intro front back split ends
          exact above (name :: front) back (congrArg _ split) ends
    next pruned =>
      refine (or_iff_left ?_).symm
      rintro ⟨sub, text, rfl, leads, -, above⟩
      cases sub with
      | nil => simp [Node.find] at leads
      | cons name sub =>
        have entered := above [] (name :: sub) rfl (List.cons_ne_nil _ _)
        rw [List.append_nil] at entered
        exact pruned entered

theorem mem_walkEntries : ∀ {entries : Entries} {at_ path : List String} {language : Language}
    {found : SourceFiles}, entries.WellFormed →
    ((path, language) ∈ (rules.walkEntries entries at_ found).files ↔
      (path, language) ∈ found.files ∨ ∃ name sub text, path = at_ ++ name :: sub ∧
        entries.find name sub = some (.file text) ∧ Takes rules path language ∧
        ∀ front back, sub = front ++ back → back ≠ [] →
          rules.enters (relative (at_ ++ name :: front)) = true)
  | .nil, at_, path, language, found, _ => by simp [Rules.walkEntries, Entries.find]
  | .cons own node rest, at_, path, language, found, wellFormed => by
    rw [Entries.WellFormed] at wellFormed
    obtain ⟨-, fresh, here, later⟩ := wellFormed
    rw [Rules.walkEntries, mem_walkEntries later, mem_walkNode here, or_assoc]
    apply or_congr_right
    constructor
    · rintro (⟨sub, text, rfl, leads, takes, above⟩ | ⟨name, sub, text, rfl, leads, takes, above⟩)
      · refine ⟨own, sub, text, by simp, ?_, takes, fun front back split ends => ?_⟩
        · rw [Entries.find, if_pos rfl, leads]
        · simpa using above front back split ends
      · refine ⟨name, sub, text, rfl, ?_, takes, above⟩
        have listed := Entries.mem_names_of_find leads
        have other : own ≠ name := fun same => fresh (same ▸ listed)
        rw [Entries.find, if_neg other, leads]
    · rintro ⟨name, sub, text, rfl, leads, takes, above⟩
      rw [Entries.find] at leads
      split at leads
      next same =>
        subst same
        refine .inl ⟨sub, text, by simp, leads, takes, fun front back split ends => ?_⟩
        simpa using above front back split ends
      next other => exact .inr ⟨name, sub, text, rfl, leads, takes, above⟩
end

/-- What lies below an ignored directory is ignored. -/
def Rules.Inherits (rules : Rules) : Prop :=
  ∀ front back, (∀ name ∈ front ++ back, PlainName name) → front ≠ [] →
    rules.ignores (relative front) = true → rules.ignores (relative (front ++ back)) = true

/-- The walk lists a file when it has a language, the rules admit its path, and no directory
above it is pruned for bearing the name of a generated file. -/
theorem mem_sourceFiles {tree : Entries} (wellFormed : tree.WellFormed)
    (inherits : rules.Inherits) {path : List String} {language : Language} :
    (path, language) ∈ (rules.sourceFiles tree).files ↔
      (∃ text, (Node.dir tree).find path = some (.file text)) ∧ Takes rules path language ∧
        ∀ front back, path = front ++ back → front ≠ [] → back ≠ [] →
          (∀ name ∈ front.getLast?, isGenerated name = false) ∨
            rules.filter.shouldDescend (relative front) = true := by
  have listed : (path, language) ∈ (rules.sourceFiles tree).files ↔
      (path, language) ∈ (rules.walkEntries tree [] .empty).files :=
    (byKey_perm _).mem_iff
  rw [listed, mem_walkEntries wellFormed]
  simp only [SourceFiles.empty, List.not_mem_nil, false_or, List.nil_append]
  constructor
  · rintro ⟨name, sub, text, rfl, leads, takes, above⟩
    refine ⟨⟨text, leads⟩, takes, fun front back split front_ne back_ne => .inr ?_⟩
    cases front with
    | nil => exact absurd rfl front_ne
    | cons own front =>
      rw [List.cons_append, List.cons.injEq] at split
      obtain ⟨rfl, rest⟩ := split
      have entered := above front back rest back_ne
      rw [Rules.enters, Bool.and_eq_true] at entered
      exact entered.1
  · rintro ⟨⟨text, leads⟩, takes, above⟩
    cases path with
    | nil => simp [Node.find] at leads
    | cons name sub =>
      refine ⟨name, sub, text, rfl, leads, takes, fun front back split back_ne => ?_⟩
      have plain := @Node.plain_of_find (.dir tree) _ _ wellFormed leads
      have whole : name :: sub = (name :: front) ++ back := congrArg _ split
      rw [whole] at plain
      have plainFront : ∀ n ∈ name :: front, PlainName n :=
        fun n member => plain n (List.mem_append_left _ member)
      have plainBack : ∀ n ∈ back, PlainName n :=
        fun n member => plain n (List.mem_append_right _ member)
      have admitted := takes.1
      rw [whole, Rules.admits, Bool.and_eq_true, Bool.not_eq_true'] at admitted
      rw [Rules.enters, Bool.and_eq_true, Bool.not_eq_true']
      constructor
      · rcases above (name :: front) back whole (List.cons_ne_nil _ _) back_ne with named | entered
        · exact IndexFilter.descends_of_isIndexable plainFront plainBack (List.cons_ne_nil _ _)
            back_ne admitted.1 named
        · exact entered
      · cases ignored : rules.ignores (relative (name :: front)) with
        | false => rfl
        | true =>
          have below := inherits _ _ plain (List.cons_ne_nil _ _) ignored
          exact absurd (below.symm.trans admitted.2) (by decide)

end Listing

end Gonzalo.Index
