import Gonzalo.Lib.Program

/-!
# A file system

A tree of directories and files under a root, names compared exactly, and the requests a
store makes of it. `Serves` is what the file system does when nothing goes wrong and
`Faults` what it may do instead: any request can fail, a directory path can be made in
part and a file can be left torn. A listing names the entries of a directory in any order.

Every request keeps the tree closed: what exists lies in a directory.
-/

set_option autoImplicit false

namespace Gonzalo.Lib

/-- A path, by the names that lead to it from the root. -/
abbrev Path : Type := List String

/-- `Path::join` with a name that holds no separator. An empty name leads nowhere else. -/
def Path.join (path : Path) (name : String) : Path := if name = "" then path else path ++ [name]

/-- A file name up to its last dot, a dot that starts it apart. -/
def fileStem (name : List Char) : List Char :=
  match name.reverse.dropWhile (· ≠ '.') with
  | [] | ['.'] => name
  | _ :: before => before.reverse

/-- `Path::with_extension`. -/
def Path.withExtension (path : Path) (ext : String) : Path :=
  match path.getLast? with
  | none => path
  | some name => path.dropLast ++ [String.ofList (fileStem name.toList) ++ "." ++ ext]

inductive Node (β : Type) where
  | dir
  | file (contents : β)
  deriving DecidableEq

abbrev FileTree (β : Type) : Type := Path → Option (Node β)

inductive IoError where
  | notFound
  | other (text : String)

/-- What a process asks of a file system. `openFile` creates a file that is not there and
`writeFile` also empties one that is; `writeFile` then writes the contents and syncs them. -/
inductive FsReq (β : Type) where
  | createDirAll (path : Path)
  | openFile (path : Path)
  | read (path : Path)
  | writeFile (path : Path) (contents : β)
  | rename (src dst : Path)
  | syncDir (path : Path)
  | tryExists (path : Path)
  | readDir (path : Path)

/-- What a request answers that does not fail; a listing says of each name whether it is a
directory. -/
@[reducible] def FsReq.Answer {β : Type} : FsReq β → Type
  | read _ => β
  | tryExists _ => Bool
  | readDir _ => List (String × Bool)
  | _ => Unit

abbrev fsInterface (β : Type) : Interface := ⟨FsReq β, fun req => Except IoError req.Answer⟩

variable {β : Type}

namespace FileTree

def isFile (t : FileTree β) (path : Path) : Bool :=
  match t path with
  | some (.file _) => true
  | _ => false

/-- Whether a file stands where the path needs a directory. -/
def blocked (t : FileTree β) (path : Path) : Bool :=
  path.inits.any fun front => decide (front ≠ path) && t.isFile front

/-- What a path leads to. -/
def resolve (t : FileTree β) (path : Path) : Except IoError (Node β) :=
  if t.blocked path then .error (.other "Not a directory")
  else match t path with
    | some node => .ok node
    | none => .error .notFound

/-- The tree with a directory at every missing place down to the path. -/
def makeDirs (t : FileTree β) (path : Path) : FileTree β := fun place =>
  if place.isPrefixOf path ∧ t place = none then some .dir else t place

/-- Whether a file may be put at the path. -/
def Admits (t : FileTree β) (path : Path) : Prop :=
  path ≠ [] ∧ t path.dropLast = some .dir ∧ t path ≠ some .dir

/-- What exists lies in a directory. -/
def Closed (t : FileTree β) : Prop := ∀ path name, t (path ++ [name]) ≠ none → t path = some .dir

/-- The contents a read answers. -/
def contents (t : FileTree β) (path : Path) : Except IoError β :=
  match t.resolve path with
  | .ok (.file contents) => .ok contents
  | .ok .dir => .error (.other "Is a directory")
  | .error e => .error e

/-- Whether a path leads to anything. -/
def present (t : FileTree β) (path : Path) : Except IoError Bool :=
  match t.resolve path with
  | .ok _ => .ok true
  | .error .notFound => .ok false
  | .error e => .error e

/-- An answer to a listing of a directory. -/
def Lists (t : FileTree β) (path : Path) (entries : List (String × Bool)) : Prop :=
  (entries.map Prod.fst).Nodup ∧
    ∀ name isDir, (name, isDir) ∈ entries ↔
      ∃ node, t (path ++ [name]) = some node ∧ isDir = decide (node matches .dir)

end FileTree

/-! ### Closed trees -/

namespace FileTree

theorem Closed.ancestors {t : FileTree β} (closed : t.Closed) {front : Path} :
    ∀ {rest : Path}, rest ≠ [] → t (front ++ rest) ≠ none → t front = some .dir := by
  intro rest
  induction rest using List.reverseRecOn with
  | nil => intro empty; exact absurd rfl empty
  | append_singleton rest name ih =>
    intro _ there
    rw [← List.append_assoc] at there
    have parent := closed _ _ there
    cases rest with
    | nil => rwa [List.append_nil] at parent
    | cons => exact ih (List.cons_ne_nil _ _) (by rw [parent]; exact Option.some_ne_none _)

/-- Nothing blocks the way to what exists. -/
theorem Closed.unblocked {t : FileTree β} (closed : t.Closed) {path : Path} (there : t path ≠ none) :
    t.blocked path = false := by
  rw [blocked, List.any_eq_false]
  intro front mem
  obtain ⟨rest, rfl⟩ := (List.mem_inits _ _).mp mem
  by_cases whole : rest = []
  · simp [whole]
  · simp [isFile, closed.ancestors whole there]

theorem Closed.resolve_eq {t : FileTree β} (closed : t.Closed) {path : Path} {node : Node β}
    (there : t path = some node) : t.resolve path = .ok node := by
  have free : t.blocked path = false :=
    closed.unblocked (by rw [there]; exact Option.some_ne_none _)
  simp [resolve, free, there]

/-- Putting a file where one may stand keeps the tree closed. -/
theorem Closed.update {t : FileTree β} (closed : t.Closed) {path : Path} (admits : t.Admits path)
    (contents : β) : FileTree.Closed (Function.update t path (some (.file contents))) := by
  obtain ⟨nonempty, parent, notDir⟩ := admits
  intro place name there
  have dir : t place = some .dir := by
    by_cases same : place ++ [name] = path
    · rwa [← same, List.dropLast_concat] at parent
    · rw [Function.update_of_ne same] at there
      exact closed _ _ there
  by_cases same : place = path
  · rw [same] at dir
    exact absurd dir notDir
  · rwa [Function.update_of_ne same]

theorem Closed.makeDirs {t : FileTree β} (closed : t.Closed) {path : Path}
    (free : t.blocked path = false) (dir : t.isFile path = false) : (t.makeDirs path).Closed := by
  have notFile : ∀ front, front <+: path → t.isFile front = false := by
    intro front part
    by_cases whole : front = path
    · rwa [whole]
    · rw [blocked, List.any_eq_false] at free
      simpa [whole] using free front ((List.mem_inits _ _).mpr part)
  intro place name there
  unfold FileTree.makeDirs at there ⊢
  by_cases made : (place ++ [name]).isPrefixOf path ∧ t (place ++ [name]) = none
  · have part : place <+: path :=
      (List.prefix_append place [name]).trans (List.isPrefixOf_iff_prefix.mp made.1)
    have file := notFile place part
    cases node : t place with
    | none => rw [if_pos ⟨List.isPrefixOf_iff_prefix.mpr part, rfl⟩]
    | some node' =>
      rw [if_neg (by simp)]
      cases node' with
      | dir => rfl
      | file contents => simp [isFile, node] at file
  · rw [if_neg made] at there
    have parent := closed _ _ there
    rw [if_neg (by simp [parent])]
    exact parent

theorem Closed.erase {t : FileTree β} (closed : t.Closed) {path : Path} {contents : β}
    (file : t path = some (.file contents)) : FileTree.Closed (Function.update t path none) := by
  intro place name there
  by_cases same : place ++ [name] = path
  · rw [same, Function.update_self] at there
    exact absurd rfl there
  · rw [Function.update_of_ne same] at there
    have parent := closed _ _ there
    by_cases here : place = path
    · rw [here, file] at parent
      cases parent
    · rwa [Function.update_of_ne here]

end FileTree

theorem FileTree.resolve_eq_ok {t : FileTree β} {path : Path} {node : Node β}
    (resolved : t.resolve path = .ok node) : t path = some node := by
  unfold FileTree.resolve at resolved
  split at resolved
  next => cases resolved
  next =>
    split at resolved
    next node there => cases resolved; exact there
    next => cases resolved

theorem FileTree.resolve_eq_notFound {t : FileTree β} {path : Path}
    (resolved : t.resolve path = .error .notFound) : t path = none := by
  unfold FileTree.resolve at resolved
  split at resolved
  next => cases resolved
  next =>
    split at resolved
    next => cases resolved
    next absent => exact absent

/-- Nothing stands above the root. -/
theorem FileTree.resolve_root (t : FileTree β) {e : IoError} (resolved : t.resolve [] = .error e) :
    e = .notFound := by
  unfold FileTree.resolve FileTree.blocked at resolved
  cases node : t [] with
  | some => simp [node] at resolved
  | none => simpa [node, eq_comm] using resolved

theorem FileTree.contents_eq_ok {t : FileTree β} {path : Path} {contents : β}
    (read : t.contents path = .ok contents) : t path = some (.file contents) := by
  unfold FileTree.contents at read
  split at read
  next found resolved =>
    cases read
    exact FileTree.resolve_eq_ok resolved
  next => cases read
  next => cases read

theorem FileTree.contents_eq_notFound {t : FileTree β} {path : Path}
    (read : t.contents path = .error .notFound) : t path = none := by
  unfold FileTree.contents at read
  split at read
  next => cases read
  next => cases read
  next e resolved =>
    cases read
    exact FileTree.resolve_eq_notFound resolved

theorem FileTree.present_eq_true {t : FileTree β} {path : Path} (found : t.present path = .ok true) :
    t path ≠ none := by
  unfold FileTree.present at found
  split at found
  next node resolved =>
    rw [FileTree.resolve_eq_ok resolved]
    exact Option.some_ne_none _
  next => cases found
  next => cases found

theorem FileTree.present_eq_false {t : FileTree β} {path : Path}
    (found : t.present path = .ok false) : t path = none := by
  unfold FileTree.present at found
  split at found
  next => cases found
  next resolved => exact FileTree.resolve_eq_notFound resolved
  next => cases found

/-! ### What changes -/

/-- Nothing differs but directories that were made on the way to `under` and the places in
`files`, and no other directory is new. -/
structure FileTree.Within (under : Path) (files : Set Path) (t t' : FileTree β) : Prop where
  outside : ∀ place, place ∉ files →
    t' place = t place ∨ place <+: under ∧ t place = none ∧ t' place = some .dir
  dirs : ∀ place, t' place = some .dir → t place = some .dir ∨ place <+: under

/-- A request that touches nothing else. -/
def FsReq.Within (under : Path) (files : Set Path) : FsReq β → Prop
  | createDirAll path => path = under
  | openFile path | writeFile path _ => path ∈ files
  | rename src dst => src ∈ files ∧ dst ∈ files
  | _ => True

theorem FileTree.Within.refl (under : Path) (files : Set Path) (t : FileTree β) :
    FileTree.Within under files t t :=
  ⟨fun _ _ => .inl rfl, fun _ => .inl⟩

theorem FileTree.Within.trans {under : Path} {files : Set Path} {t t' t'' : FileTree β}
    (first : FileTree.Within under files t t') (second : FileTree.Within under files t' t'') :
    FileTree.Within under files t t'' where
  outside := by
    intro place outside
    rcases first.outside place outside with same | ⟨part, absent, made⟩
    · rw [← same]
      exact second.outside place outside
    · rcases second.outside place outside with same' | ⟨_, absent', _⟩
      · exact .inr ⟨part, absent, same'.trans made⟩
      · rw [made] at absent'
        cases absent'
  dirs := by
    intro place dir
    rcases second.dirs place dir with dir' | part
    · exact first.dirs place dir'
    · exact .inr part

theorem FileTree.within_makeDirs (t : FileTree β) {under front : Path} (files : Set Path)
    (part : front <+: under) : FileTree.Within under files t (t.makeDirs front) := by
  have each : ∀ place, t.makeDirs front place = t place ∨
      place <+: under ∧ t place = none ∧ t.makeDirs front place = some .dir := by
    intro place
    unfold FileTree.makeDirs
    split
    next made => exact .inr ⟨(List.isPrefixOf_iff_prefix.mp made.1).trans part, made.2, rfl⟩
    next => exact .inl rfl
  refine ⟨fun place _ => each place, fun place dir => ?_⟩
  rcases each place with same | ⟨under, -⟩
  · exact .inl (same ▸ dir)
  · exact .inr under

theorem FileTree.within_update (t : FileTree β) (under : Path) {files : Set Path} {path : Path}
    (listed : path ∈ files) {node : Option (Node β)} (file : node ≠ some .dir) :
    FileTree.Within under files t (Function.update t path node) where
  outside := by
    intro place outside
    exact .inl (Function.update_of_ne (fun same : place = path => outside (same ▸ listed)) _ _)
  dirs := by
    intro place dir
    by_cases here : place = path
    · rw [here, Function.update_self] at dir
      exact absurd dir file
    · rw [Function.update_of_ne here] at dir
      exact .inl dir

/-- What stays where nothing may change. -/
theorem FileTree.Within.same {under : Path} {files : Set Path} {t t' : FileTree β} {place : Path}
    (within : FileTree.Within under files t t') (outside : place ∉ files)
    (apart : ¬ place <+: under) : t' place = t place := by
  rcases within.outside place outside with same | ⟨part, -⟩
  · exact same
  · exact absurd part apart

/-- What is there stays where no file may be put. -/
theorem FileTree.Within.keeps {under : Path} {files : Set Path} {t t' : FileTree β} {place : Path}
    (within : FileTree.Within under files t t') (outside : place ∉ files) (there : t place ≠ none) :
    t' place = t place := by
  rcases within.outside place outside with same | ⟨-, absent, -⟩
  · exact same
  · exact absurd absent there

/-- A tree stays finite. -/
theorem FileTree.Within.finite {under : Path} {files : Set Path} {t t' : FileTree β}
    (within : FileTree.Within under files t t') (few : files.Finite)
    (finite : {place | t place ≠ none}.Finite) : {place | t' place ≠ none}.Finite := by
  have fronts : {place : Path | place <+: under}.Finite :=
    (under.inits.finite_toSet).subset fun place part => (List.mem_inits _ _).mpr part
  refine ((finite.union few).union fronts).subset fun place there => ?_
  by_cases listed : place ∈ files
  · exact .inl (.inr listed)
  · rcases within.outside place listed with same | ⟨part, -⟩
    · refine .inl (.inl ?_)
      rwa [Set.mem_ofPred_eq, same] at there
    · exact .inr part

/-- Every request touches few places. -/
theorem FsReq.exists_within (req : FsReq β) :
    ∃ (under : Path) (files : Set Path), files.Finite ∧ req.Within under files := by
  cases req with
  | createDirAll path => exact ⟨path, ∅, Set.finite_empty, rfl⟩
  | openFile path => exact ⟨[], {path}, Set.finite_singleton path, rfl⟩
  | writeFile path _ => exact ⟨[], {path}, Set.finite_singleton path, rfl⟩
  | rename src dst => exact ⟨[], {src, dst}, Set.toFinite _, .inl rfl, .inr rfl⟩
  | read | syncDir | tryExists | readDir => exact ⟨[], ∅, Set.finite_empty, trivial⟩

/-- A finite tree can be listed. -/
theorem FileTree.lists_exists {t : FileTree β} (finite : {place | t place ≠ none}.Finite)
    (path : Path) : ∃ entries, t.Lists path entries := by
  classical
  have few : {name : String | t (path ++ [name]) ≠ none}.Finite := by
    refine Set.Finite.preimage (f := fun name => path ++ [name]) ?_ finite
    intro a _ b _ same
    exact List.singleton_inj.mp (List.append_cancel_left same)
  refine ⟨few.toFinset.toList.map fun name => (name, decide (t (path ++ [name]) = some .dir)), ?_, ?_⟩
  · rw [List.map_map]
    exact (List.map_id _).symm ▸ few.toFinset.nodup_toList
  · intro name isDir
    simp only [List.mem_map, Finset.mem_toList, Set.Finite.mem_toFinset, Prod.mk.injEq]
    constructor
    · rintro ⟨name, there, rfl, rfl⟩
      obtain ⟨node, found⟩ := Option.ne_none_iff_exists'.mp there
      refine ⟨node, found, ?_⟩
      cases node <;> simp [found]
    · rintro ⟨node, found, rfl⟩
      refine ⟨name, ?_, rfl, ?_⟩
      · rw [Set.mem_ofPred_eq, found]
        exact Option.some_ne_none _
      · cases node <;> simp [found]

/-! ### The file system -/

variable [EmptyCollection β]

/-- What the file system answers when nothing goes wrong. -/
inductive Serves (t : FileTree β) : (req : FsReq β) → Except IoError req.Answer → FileTree β → Prop
  | madeDirs {path : Path} (free : t.blocked path = false) (dir : t.isFile path = false) :
      Serves t (.createDirAll path) (.ok ()) (t.makeDirs path)
  | dirsRefused {path : Path} (text : String)
      (taken : t.blocked path = true ∨ t.isFile path = true) :
      Serves t (.createDirAll path) (.error (.other text)) t
  | opened {path : Path} (admits : t.Admits path) :
      Serves t (.openFile path) (.ok ())
        (if t path = none then Function.update t path (some (.file ∅)) else t)
  | openRefused {path : Path} (e : IoError) (refused : ¬ t.Admits path) :
      Serves t (.openFile path) (.error e) t
  | read (path : Path) : Serves t (.read path) (t.contents path) t
  | written {path : Path} (contents : β) (admits : t.Admits path) :
      Serves t (.writeFile path contents) (.ok ()) (Function.update t path (some (.file contents)))
  | writeRefused {path : Path} (contents : β) (e : IoError) (refused : ¬ t.Admits path) :
      Serves t (.writeFile path contents) (.error e) t
  | renamed {src dst : Path} {contents : β} (there : t src = some (.file contents))
      (admits : t.Admits dst) (apart : src ≠ dst) :
      Serves t (.rename src dst) (.ok ())
        (Function.update (Function.update t dst (some (.file contents))) src none)
  | renamedSame {path : Path} {contents : β} (there : t path = some (.file contents)) :
      Serves t (.rename path path) (.ok ()) t
  | renameRefused {src dst : Path} (e : IoError)
      (refused : (∀ contents, t src ≠ some (.file contents)) ∨ ¬ t.Admits dst) :
      Serves t (.rename src dst) (.error e) t
  | synced (path : Path) : Serves t (.syncDir path) (.ok ()) t
  | exists (path : Path) : Serves t (.tryExists path) (t.present path) t
  | listed {path : Path} {entries : List (String × Bool)} (dir : t.resolve path = .ok .dir)
      (lists : t.Lists path entries) : Serves t (.readDir path) (.ok entries) t
  | notDir {path : Path} {contents : β} (text : String)
      (file : t.resolve path = .ok (.file contents)) :
      Serves t (.readDir path) (.error (.other text)) t
  | unlisted {path : Path} {e : IoError} (unresolved : t.resolve path = .error e) :
      Serves t (.readDir path) (.error e) t

/-- What the file system may do when something goes wrong. -/
inductive Faults (t : FileTree β) : (req : FsReq β) → Except IoError req.Answer → FileTree β → Prop
  | failed (req : FsReq β) (text : String) : Faults t req (.error (.other text)) t
  | someDirs {path front : Path} (text : String) (part : front <+: path)
      (free : t.blocked front = false) (dir : t.isFile front = false) :
      Faults t (.createDirAll path) (.error (.other text)) (t.makeDirs front)
  | opened {path : Path} (text : String) (admits : t.Admits path) (absent : t path = none) :
      Faults t (.openFile path) (.error (.other text)) (Function.update t path (some (.file ∅)))
  | torn {path : Path} {contents : β} (text : String) (left : β) (admits : t.Admits path) :
      Faults t (.writeFile path contents) (.error (.other text))
        (Function.update t path (some (.file left)))

/-- What a process may see of the file system. -/
def MayServe (t : FileTree β) (req : FsReq β) (answer : Except IoError req.Answer) (t' : FileTree β) :
    Prop :=
  Serves t req answer t' ∨ Faults t req answer t'

theorem MayServe.closed {t t' : FileTree β} {req : FsReq β} {answer : Except IoError req.Answer}
    (served : MayServe t req answer t') (closed : t.Closed) : t'.Closed := by
  rcases served with served | fault
  · cases served with
    | madeDirs free dir => exact closed.makeDirs free dir
    | opened admits =>
      split
      · exact closed.update admits ∅
      · exact closed
    | written contents admits => exact closed.update admits contents
    | @renamed src dst contents there admits apart =>
      have still : Function.update t dst (some (.file contents)) src = some (.file contents) := by
        rwa [Function.update_of_ne apart]
      exact (closed.update admits contents).erase still
    | _ => exact closed
  · cases fault with
    | someDirs _ _ free dir => exact closed.makeDirs free dir
    | opened _ admits => exact closed.update admits ∅
    | torn _ left admits => exact closed.update admits left
    | failed => exact closed

/-- A request that changes nothing. -/
def FsReq.Reads : FsReq β → Prop
  | read _ | syncDir _ | tryExists _ | readDir _ => True
  | _ => False

theorem MayServe.unmoved {t t' : FileTree β} {req : FsReq β} {answer : Except IoError req.Answer}
    (served : MayServe t req answer t') (reads : req.Reads) : t' = t := by
  rcases served with served | fault
  · cases served with
    | madeDirs | opened | written | renamed => exact absurd reads (by simp [FsReq.Reads])
    | _ => rfl
  · cases fault with
    | someDirs | opened | torn => exact absurd reads (by simp [FsReq.Reads])
    | failed => rfl

/-- A rename that fails moves nothing. -/
theorem MayServe.unmoved_of_error {t t' : FileTree β} {src dst : Path} {e : IoError}
    (served : MayServe t (.rename src dst) (.error e) t') : t' = t := by
  rcases served with served | fault
  · cases served
    rfl
  · cases fault
    rfl

theorem MayServe.written {t t' : FileTree β} {path : Path} {contents : β} {done : Unit}
    (served : MayServe t (.writeFile path contents) (.ok done) t') :
    t' path = some (.file contents) := by
  rcases served with served | fault
  · cases served
    exact Function.update_self _ _ _
  · cases fault

/-- A rename that succeeds publishes the contents of its source. -/
theorem MayServe.renamed {t t' : FileTree β} {src dst : Path} {contents : β} {done : Unit}
    (served : MayServe t (.rename src dst) (.ok done) t') (there : t src = some (.file contents)) :
    t' dst = some (.file contents) := by
  rcases served with served | fault
  · cases served with
    | renamed found admits apart =>
      rw [there] at found
      cases found
      rw [Function.update_of_ne (Ne.symm apart), Function.update_self]
    | renamedSame => exact there
  · cases fault

theorem MayServe.answered {t t' : FileTree β} {path : Path} {found : Bool}
    (served : MayServe t (.tryExists path) (.ok found) t') : t.present path = .ok found := by
  rcases served with served | fault
  · generalize answer : (Except.ok found : Except IoError Bool) = result at served
    cases served
    rfl
  · cases fault

theorem MayServe.within {t t' : FileTree β} {req : FsReq β} {answer : Except IoError req.Answer}
    {under : Path} {files : Set Path} (served : MayServe t req answer t')
    (allowed : req.Within under files) : FileTree.Within under files t t' := by
  rcases served with served | fault
  · cases served with
    | madeDirs => exact t.within_makeDirs files (allowed ▸ List.prefix_rfl)
    | opened =>
      split
      · exact t.within_update under allowed (by simp)
      · exact .refl under files t
    | written => exact t.within_update under allowed (by simp)
    | renamed =>
      exact (t.within_update under allowed.2 (by simp)).trans
        (FileTree.within_update _ under allowed.1 (by simp))
    | _ => exact .refl under files t
  · cases fault with
    | someDirs _ part => exact t.within_makeDirs files (part.trans (allowed ▸ List.prefix_rfl))
    | opened => exact t.within_update under allowed (by simp)
    | torn => exact t.within_update under allowed (by simp)
    | failed => exact .refl under files t

/-- A process that touches nothing else, alone with the file system. -/
def fsContract (under : Path) (files : Set Path) : Contract (fsInterface β) (FileTree β) where
  guard _ req := req.Within under files
  turn t req answer t' := MayServe t req answer t'

/-- What is proved of such a process holds of every run of it, and the run touches nothing
else and keeps the tree closed. -/
theorem Wp.files {ε α : Type} {under : Path} {files : Set Path} {post : FileTree β → Except ε α → Prop}
    {p : Program (fsInterface β) ε α} {t t' : FileTree β} {result : Except ε α}
    (holds : Wp (fsContract under files) post t p) (run : Program.Runs MayServe t p t' result) :
    post t' result ∧ FileTree.Within under files t t' ∧ (t.Closed → t'.Closed) := by
  induction run with
  | done => exact ⟨holds, .refl _ _ _, id⟩
  | fail => exact ⟨holds, .refl _ _ _, id⟩
  | ask served later ih =>
    obtain ⟨ends, within, closed⟩ := ih (holds.2 _ _ served)
    exact ⟨ends, (served.within holds.1).trans within, fun start => closed (served.closed start)⟩

/-! ### Runs -/

instance (t : FileTree β) [DecidableEq β] (path : Path) : Decidable (t.Admits path) :=
  inferInstanceAs (Decidable (_ ∧ _ ∧ _))

/-- The file system when nothing goes wrong, for every request but a listing. -/
def FileTree.serve [DecidableEq β] (t : FileTree β) :
    (req : FsReq β) → FileTree β × Except IoError req.Answer
  | .createDirAll path =>
    if t.blocked path || t.isFile path then (t, .error (.other "Not a directory"))
    else (t.makeDirs path, .ok ())
  | .openFile path =>
    if t.Admits path then
      (if t path = none then Function.update t path (some (.file ∅)) else t, .ok ())
    else (t, .error .notFound)
  | .read path => (t, t.contents path)
  | .writeFile path contents =>
    if t.Admits path then (Function.update t path (some (.file contents)), .ok ())
    else (t, .error .notFound)
  | .rename src dst =>
    match t src with
    | some (.file contents) =>
      if src = dst then (t, .ok ())
      else if t.Admits dst then
        (Function.update (Function.update t dst (some (.file contents))) src none, .ok ())
      else (t, .error .notFound)
    | _ => (t, .error .notFound)
  | .syncDir _ => (t, .ok ())
  | .tryExists path => (t, t.present path)
  | .readDir _ => (t, .error .notFound)

def FsReq.isListing : FsReq β → Bool
  | readDir _ => true
  | _ => false

theorem FileTree.serves [DecidableEq β] (t : FileTree β) {req : FsReq β}
    (notListing : req.isListing = false) : Serves t req (t.serve req).2 (t.serve req).1 := by
  cases req with
  | createDirAll path =>
    simp only [FileTree.serve]
    split
    next taken => exact .dirsRefused _ (by simpa using taken)
    next free =>
      rw [Bool.or_eq_true, not_or, Bool.not_eq_true, Bool.not_eq_true] at free
      exact .madeDirs free.1 free.2
  | openFile path =>
    simp only [FileTree.serve]
    split
    next admits => exact .opened admits
    next refused => exact .openRefused _ refused
  | read path => exact .read path
  | writeFile path contents =>
    simp only [FileTree.serve]
    split
    next admits => exact .written contents admits
    next refused => exact .writeRefused contents _ refused
  | rename src dst =>
    simp only [FileTree.serve]
    split
    next contents there =>
      split
      next same =>
        cases same
        exact .renamedSame there
      next apart =>
        split
        next admits => exact .renamed there admits apart
        next refused => exact .renameRefused _ (.inr refused)
    next other => exact .renameRefused _ (.inl other)
  | syncDir path => exact .synced path
  | tryExists path => exact .exists path
  | readDir path => cases notListing

/-- A file system in which nothing goes wrong answers every request. -/
theorem FileTree.answers {t : FileTree β} (finite : {place | t place ≠ none}.Finite)
    (req : FsReq β) : ∃ answer t', Serves t req answer t' ∧ {place | t' place ≠ none}.Finite := by
  classical
  obtain ⟨answer, t', served⟩ : ∃ answer t', Serves t req answer t' := by
    by_cases listing : req.isListing = false
    · exact ⟨_, _, t.serves listing⟩
    · cases req with
      | readDir path =>
        cases resolved : t.resolve path with
        | error e => exact ⟨_, _, .unlisted resolved⟩
        | ok node =>
          cases node with
          | file contents => exact ⟨_, _, .notDir "Not a directory" resolved⟩
          | dir =>
            obtain ⟨entries, lists⟩ := FileTree.lists_exists finite path
            exact ⟨_, _, .listed resolved lists⟩
      | _ => exact absurd rfl listing
  obtain ⟨under, files, few, allowed⟩ := req.exists_within
  exact ⟨answer, t', served, (MayServe.within (.inl served) allowed).finite few finite⟩

/-- A read answers what the tree holds. -/
theorem Serves.read_iff {t t' : FileTree β} {path : Path} {answer : Except IoError β} :
    Serves t (.read path) answer t' ↔ answer = t.contents path ∧ t' = t := by
  constructor
  · intro served
    cases served
    exact ⟨rfl, rfl⟩
  · rintro ⟨rfl, rfl⟩
    exact .read path

/-- A process that starts with a read goes on with what the tree holds. -/
theorem FileTree.runs_read_iff {ε α : Type} {t t' : FileTree β} {path : Path}
    {next : (fsInterface β).Ans (.read path) → Program (fsInterface β) ε α} {result : Except ε α} :
    Program.Runs Serves t (.ask (I := fsInterface β) (.read path) next) t' result ↔
      Program.Runs Serves t (next (t.contents path)) t' result := by
  rw [Program.Runs.ask_iff]
  constructor
  · rintro ⟨answer, t₁, served, later⟩
    obtain ⟨rfl, rfl⟩ := Serves.read_iff.mp served
    exact later
  · intro later
    exact ⟨_, _, .read path, later⟩

/-- Every process has a run in which nothing goes wrong. -/
theorem FileTree.runs_exist {ε α : Type} (p : Program (fsInterface β) ε α) {t : FileTree β}
    (finite : {place | t place ≠ none}.Finite) : ∃ t' result, Program.Runs Serves t p t' result := by
  induction p generalizing t with
  | done value => exact ⟨t, _, .done t value⟩
  | fail error => exact ⟨t, _, .fail t error⟩
  | ask req next ih =>
    obtain ⟨answer, t₁, served, finite₁⟩ := FileTree.answers finite req
    obtain ⟨t', result, run⟩ := ih answer finite₁
    exact ⟨t', result, .ask served run⟩

end Gonzalo.Lib
