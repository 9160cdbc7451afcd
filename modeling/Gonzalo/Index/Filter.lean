import Gonzalo.Core.Segments

/-!
# Which paths enter a view

The path rules of `gonzalo-cli/src/walk.rs` and the language table of
`gonzalo-graph/src/builder.rs`. The drivers of the indexer know a path as the text of its
names joined by slashes; a backslash in a name becomes a slash too.
-/

set_option autoImplicit false

namespace Gonzalo.Index
open Gonzalo.Core

/-! ## Languages -/

/-- A language with a grammar. -/
inductive Language where
  | rust | python | javaScript | typeScript | tsx | go | java | cSharp | c | cpp | ruby | php
  | bash | kotlin | swift | lua | scala | elixir
  deriving DecidableEq, Repr

def extensions : List (String × Language) :=
  [("rs", .rust), ("py", .python), ("js", .javaScript), ("jsx", .javaScript), ("mjs", .javaScript),
    ("cjs", .javaScript), ("ts", .typeScript), ("mts", .typeScript), ("cts", .typeScript),
    ("tsx", .tsx), ("go", .go), ("java", .java), ("cs", .cSharp), ("c", .c), ("h", .cpp),
    ("cpp", .cpp), ("cc", .cpp), ("cxx", .cpp), ("hpp", .cpp), ("hh", .cpp), ("rb", .ruby),
    ("php", .php), ("sh", .bash), ("bash", .bash), ("kt", .kotlin), ("kts", .kotlin),
    ("swift", .swift), ("lua", .lua), ("scala", .scala), ("sc", .scala), ("ex", .elixir),
    ("exs", .elixir)]

/-- `Language::from_extension`. -/
def Language.fromExtension (ext : String) : Option Language := extensions.lookup ext

/-- `Path::extension` of a path that ends in the name. -/
def extensionOfName (name : String) : Option String :=
  (rsplitOnce name '.').bind fun (stem, ext) => if stem = "" then none else some ext

/-- `Path::file_name`. -/
def fileName (path : String) : Option String :=
  let last := ((splitAt path '/').filter fun part => part ≠ "" ∧ part ≠ ".").getLast?
  if last = some ".." then none else last

/-- `Path::extension`. -/
def extension (path : String) : Option String := (fileName path).bind extensionOfName

/-! ## Paths -/

/-- `str::replace` of backslashes by slashes. -/
def slashed (s : String) : String :=
  String.ofList (s.toList.map fun c => if c = '\\' then '/' else c)

/-- The text of a path below the root. -/
def relative (path : List String) : String := slashed ("/".intercalate path)

/-- A name that a directory entry can have, without a backslash. -/
structure PlainName (name : String) : Prop where
  nonempty : name ≠ ""
  noSlash : '/' ∉ name.toList
  noBackslash : '\\' ∉ name.toList
  notHere : name ≠ "."
  notUp : name ≠ ".."

theorem slashed_of_plain {s : String} (plain : '\\' ∉ s.toList) : slashed s = s := by
  have same : s.toList.map (fun c => if c = '\\' then '/' else c) = s.toList := by
    refine (List.map_congr_left fun c member => ?_).trans (List.map_id' _)
    have other : c ≠ '\\' := fun back => plain (back ▸ member)
    exact if_neg other
  rw [slashed, same, String.ofList_toList]

theorem mem_intercalate {sep c : Char} {parts : List (List Char)}
    (member : c ∈ [sep].intercalate parts) : c = sep ∨ ∃ part ∈ parts, c ∈ part := by
  induction parts with
  | nil => simp at member
  | cons part rest ih =>
    cases rest with
    | nil => exact .inr ⟨part, by simp, by simpa using member⟩
    | cons next rest =>
      rw [List.intercalate_cons_cons, List.mem_append, List.mem_append] at member
      rcases member with (first | between) | later
      · exact .inr ⟨part, List.mem_cons_self, first⟩
      · exact .inl (List.mem_singleton.mp between)
      · rcases ih later with between | ⟨own, listed, held⟩
        · exact .inl between
        · exact .inr ⟨own, List.mem_cons_of_mem _ listed, held⟩

section Plain
variable {path dir rest : List String}

theorem relative_of_plain (plain : ∀ name ∈ path, PlainName name) :
    relative path = "/".intercalate path := by
  apply slashed_of_plain
  intro back
  rw [String.toList_intercalate, show "/".toList = ['/'] from rfl] at back
  rcases mem_intercalate back with slash | ⟨part, listed, held⟩
  · revert slash
    decide
  · obtain ⟨name, named, rfl⟩ := List.mem_map.mp listed
    exact (plain name named).noBackslash held

theorem toList_relative (plain : ∀ name ∈ path, PlainName name) :
    (relative path).toList = ['/'].intercalate (path.map String.toList) := by
  rw [relative_of_plain plain, String.toList_intercalate, show "/".toList = ['/'] from rfl]

/-- The names of a plain path can be read off its text. -/
theorem splitAt_relative (plain : ∀ name ∈ path, PlainName name) (nonempty : path ≠ []) :
    splitAt (relative path) '/' = path := by
  rw [relative_of_plain plain]
  exact splitAt_intercalate rfl (fun name named => (plain name named).noSlash) nonempty

theorem intercalate_append {sep : Char} {front back : List (List Char)} (front_ne : front ≠ [])
    (back_ne : back ≠ []) : [sep].intercalate (front ++ back) =
      [sep].intercalate front ++ [sep] ++ [sep].intercalate back := by
  induction front with
  | nil => exact absurd rfl front_ne
  | cons part front ih =>
    cases front with
    | nil =>
      cases back with
      | nil => exact absurd rfl back_ne
      | cons next back => simp
    | cons next front =>
      have later := ih (List.cons_ne_nil _ _)
      simp only [List.cons_append, List.intercalate_cons_cons] at later ⊢
      rw [later]
      simp only [List.append_assoc]

/-- The text of a path below a directory starts with that of the directory. -/
theorem toList_relative_append (plainDir : ∀ name ∈ dir, PlainName name)
    (plainRest : ∀ name ∈ rest, PlainName name) (dir_ne : dir ≠ []) (rest_ne : rest ≠ []) :
    (relative (dir ++ rest)).toList =
      (relative dir).toList ++ ['/'] ++ (relative rest).toList := by
  have plain : ∀ name ∈ dir ++ rest, PlainName name := by
    intro name named
    rcases List.mem_append.mp named with inDir | inRest
    · exact plainDir name inDir
    · exact plainRest name inRest
  rw [toList_relative plain, toList_relative plainDir, toList_relative plainRest, List.map_append]
  exact intercalate_append (by simpa using dir_ne) (by simpa using rest_ne)

/-- A plain path has the extension of its last name. -/
theorem extension_relative (plain : ∀ name ∈ path, PlainName name) (nonempty : path ≠ []) :
    extension (relative path) = path.getLast?.bind extensionOfName := by
  have kept : path.filter (fun part => part ≠ "" ∧ part ≠ ".") = path := by
    apply List.filter_eq_self.mpr
    intro part listed
    simpa using ⟨(plain part listed).nonempty, (plain part listed).notHere⟩
  have named : path.getLast? ≠ some ".." := by
    intro last
    exact (plain ".." (List.mem_of_getLast? last)).notUp rfl
  rw [extension, fileName, splitAt_relative plain nonempty, kept]
  simp [named]

end Plain

/-! ## The filter -/

/-- `SKIP_DIRS`. -/
def skipDirs : List String :=
  ["target", "node_modules", "vendor", "dist", "build", "site-packages", "third_party"]

/-- `SKIP_SUFFIXES`. -/
def skipSuffixes : List String := [".min.js", ".min.css", ".bundle.js", "-lock.json"]

/-- A directory of dependencies or build output, or a hidden one. -/
def skipsPart (part : String) : Bool := part.toList.head? = some '.' ∨ part ∈ skipDirs

/-- A name of a generated or minified file. -/
def isGenerated (name : String) : Bool :=
  skipSuffixes.any fun suffix => suffix.toList.isSuffixOf name.toList

/-- `IndexFilter`. -/
structure IndexFilter where
  «include» : List String

namespace IndexFilter

/-- `IndexFilter::new`. -/
def new (given : List String) : IndexFilter where
  «include» := (given.map fun p => slashed (String.ofList (p.toList.rdropWhile (· = '/')))).filter
    (· ≠ "")

/-- The text goes on past the other one with a slash. -/
def below (rel front : String) : Bool := (front.toList ++ ['/']).isPrefixOf rel.toList

/-- `is_included`. -/
def isIncluded (self : IndexFilter) (rel : String) : Bool :=
  self.include.any fun front => rel = front ∨ below rel front

/-- `is_indexable`. -/
def isIndexable (self : IndexFilter) (rel : String) : Bool :=
  if self.isIncluded rel then true
  else if (splitAt rel '/').any skipsPart then false
  else !isGenerated ((splitAt rel '/').getLast?.getD rel)

/-- `should_descend`. -/
def shouldDescend (self : IndexFilter) (rel : String) : Bool :=
  self.isIndexable rel || self.include.any fun front => below front rel

theorem below_iff {rel front : String} :
    below rel front = true ↔ front.toList ++ ['/'] <+: rel.toList := by
  rw [below, List.isPrefixOf_iff_prefix]

theorem isIncluded_iff {self : IndexFilter} {rel : String} : self.isIncluded rel = true ↔
    ∃ front ∈ self.include, rel = front ∨ front.toList ++ ['/'] <+: rel.toList := by
  simp [isIncluded, below_iff]

/-- What is included is entered from above. -/
theorem descends_of_included {self : IndexFilter} {dir rest : List String}
    (plainDir : ∀ name ∈ dir, PlainName name) (plainRest : ∀ name ∈ rest, PlainName name)
    (dir_ne : dir ≠ []) (rest_ne : rest ≠ [])
    (included : self.isIncluded (relative (dir ++ rest)) = true) :
    self.isIncluded (relative dir) = true ∨
      ∃ front ∈ self.include, below front (relative dir) = true := by
  have text := toList_relative_append plainDir plainRest dir_ne rest_ne
  have starts : (relative dir).toList ++ ['/'] <+: (relative (dir ++ rest)).toList :=
    ⟨_, text.symm⟩
  obtain ⟨front, listed, rfl | under⟩ := isIncluded_iff.mp included
  · exact .inr ⟨_, listed, below_iff.mpr starts⟩
  · rcases List.prefix_or_prefix_of_prefix under starts with shorter | longer
    · rcases List.prefix_concat_iff.mp shorter with same | within
      · have here : front.toList = (relative dir).toList := List.append_cancel_right same
        exact .inl (isIncluded_iff.mpr ⟨front, listed, .inl (String.toList_injective here).symm⟩)
      · exact .inl (isIncluded_iff.mpr ⟨front, listed, .inr within⟩)
    · rcases List.prefix_concat_iff.mp longer with same | within
      · have here : (relative dir).toList = front.toList := List.append_cancel_right same
        exact .inl (isIncluded_iff.mpr ⟨front, listed, .inl (String.toList_injective here)⟩)
      · exact .inr ⟨front, listed, below_iff.mpr within⟩

/-- The directories above an indexable path are entered, those apart that bear the name of a
generated file: `is_indexable` tests the last name only. -/
theorem descends_of_isIndexable {self : IndexFilter} {dir rest : List String}
    (plainDir : ∀ name ∈ dir, PlainName name) (plainRest : ∀ name ∈ rest, PlainName name)
    (dir_ne : dir ≠ []) (rest_ne : rest ≠ [])
    (indexable : self.isIndexable (relative (dir ++ rest)) = true)
    (plain : ∀ name ∈ dir.getLast?, isGenerated name = false) :
    self.shouldDescend (relative dir) = true := by
  have names : ∀ name ∈ dir ++ rest, PlainName name := by
    intro name named
    rcases List.mem_append.mp named with inDir | inRest
    · exact plainDir name inDir
    · exact plainRest name inRest
  rw [shouldDescend, Bool.or_eq_true, List.any_eq_true]
  cases included : self.isIncluded (relative (dir ++ rest)) with
  | true =>
    rcases descends_of_included plainDir plainRest dir_ne rest_ne included with own | above
    · exact .inl (by rw [isIndexable, if_pos own])
    · exact .inr above
  | false =>
    left
    rw [isIndexable, included, splitAt_relative names (by simp [dir_ne])] at indexable
    have clean : (dir ++ rest).any skipsPart = false := by
      cases skipped : (dir ++ rest).any skipsPart with
      | true => simp [skipped] at indexable
      | false => rfl
    rw [List.any_append, Bool.or_eq_false_iff] at clean
    rw [isIndexable]
    split
    · rfl
    · rw [splitAt_relative plainDir dir_ne, clean.1]
      obtain ⟨last, ends⟩ := Option.isSome_iff_exists.mp (List.getLast?_isSome.mpr dir_ne)
      simp [ends, plain last (by simp [ends])]

end IndexFilter

end Gonzalo.Index
