import Gonzalo.Lib.FileSystem

/-!
# A file system with removal

The requests of `FsReq`, the removal of a file, and the time a file was last modified. A
directory is never removed, and the times may be any.
-/

set_option autoImplicit false

namespace Gonzalo.Lib

inductive DiskReq (β : Type) where
  | fs (req : FsReq β)
  | removeFile (path : Path)
  | modified (path : Path)

/-- What a request answers that does not fail; a time is in nanoseconds since the epoch. -/
@[reducible] def DiskReq.Answer {β : Type} : DiskReq β → Type
  | fs req => req.Answer
  | removeFile _ => Unit
  | modified _ => Int

abbrev diskInterface (β : Type) : Interface :=
  ⟨DiskReq β, fun req => Except IoError req.Answer⟩

/-- The requests that remove nothing. -/
def diskPart (β : Type) : Interface.Part (fsInterface β) (diskInterface β) :=
  ⟨DiskReq.fs, fun _ answer => answer⟩

variable {β : Type}

/-- What a process may see of the file system. -/
inductive DiskServes [EmptyCollection β] (t : FileTree β) :
    (req : DiskReq β) → Except IoError req.Answer → FileTree β → Prop
  | fs {req : FsReq β} {answer : Except IoError req.Answer} {t' : FileTree β}
      (served : MayServe t req answer t') : DiskServes t (.fs req) answer t'
  | removed {path : Path} {contents : β} (there : t path = some (.file contents)) :
      DiskServes t (.removeFile path) (.ok ()) (Function.update t path none)
  | removeRefused {path : Path} {e : IoError} (other : t.contents path = .error e) :
      DiskServes t (.removeFile path) (.error e) t
  | removeFailed (path : Path) (text : String) :
      DiskServes t (.removeFile path) (.error (.other text)) t
  | dated {path : Path} {node : Node β} (there : t.resolve path = .ok node) (timeNs : Int) :
      DiskServes t (.modified path) (.ok timeNs) t
  | undated {path : Path} {e : IoError} (absent : t.resolve path = .error e) :
      DiskServes t (.modified path) (.error e) t
  | dateFailed (path : Path) (text : String) :
      DiskServes t (.modified path) (.error (.other text)) t

/-- A run that removes nothing. -/
theorem Program.Runs.onDisk {ε α : Type} [EmptyCollection β] {t t' : FileTree β}
    {p : Program (fsInterface β) ε α} {result : Except ε α}
    (run : Program.Runs MayServe t p t' result) :
    Program.Runs DiskServes t (p.lift (diskPart β)) t' result := by
  induction run with
  | done t value => exact .done t value
  | fail t error => exact .fail t error
  | ask served later ih => exact .ask (.fs served) ih

/-- What a read shows. -/
theorem MayServe.read_answer [EmptyCollection β] {t t' : FileTree β} {path : Path}
    {answer : Except IoError β} (served : MayServe t (.read path) answer t') :
    t' = t ∧ (answer = t.contents path ∨ ∃ text, answer = .error (.other text)) := by
  rcases served with done | fault
  · cases done
    exact ⟨rfl, .inl rfl⟩
  · cases fault
    exact ⟨rfl, .inr ⟨_, rfl⟩⟩

/-! ### What a request leaves alone -/

/-- The places a request may write to, or remove from. -/
def DiskReq.targets : DiskReq β → Set Path
  | fs (.writeFile path _) => {path}
  | fs (.rename src dst) => {src, dst}
  | removeFile path => {path}
  | _ => ∅

/-- A request changes its targets, and otherwise only what is not there yet: a directory on
the way to one that it makes, or the file that it opens. -/
def DiskReq.Leaves (req : DiskReq β) (t t' : FileTree β) (place : Path) : Prop :=
  t' place = t place ∨ t place = none ∧
    ((∃ under, req = .fs (.createDirAll under) ∧ place <+: under ∧ t' place = some .dir) ∨
      req = .fs (.openFile place))

section Served

variable [EmptyCollection β]

theorem MayServe.leaves {t t' : FileTree β} {req : FsReq β} {answer : Except IoError req.Answer}
    (served : MayServe t req answer t') {place : Path} (apart : place ∉ (DiskReq.fs req).targets) :
    (DiskReq.fs req).Leaves t t' place := by
  have untouched : ∀ (path : Path) (node : Option (Node β)), path ≠ place →
      Function.update t path node place = t place := fun path node other =>
    Function.update_of_ne other.symm _ _
  have made : ∀ {path under : Path}, path <+: under → req = .createDirAll under →
      (DiskReq.fs req).Leaves t (t.makeDirs path) place := by
    rintro path under part rfl
    by_cases new : place.isPrefixOf path ∧ t place = none
    · have above := (List.isPrefixOf_iff_prefix.mp new.1).trans part
      exact .inr ⟨new.2, .inl ⟨under, rfl, above, if_pos new⟩⟩
    · exact .inl (if_neg new)
  have opened : ∀ {path : Path}, req = .openFile path → t path = none →
      (DiskReq.fs req).Leaves t (Function.update t path (some (.file ∅))) place := by
    rintro path rfl absent
    by_cases here : path = place
    · subst here
      exact .inr ⟨absent, .inr rfl⟩
    · exact .inl (untouched _ _ here)
  rcases served with served | fault
  · cases served with
    | madeDirs => exact made List.prefix_rfl rfl
    | opened =>
      split
      next absent => exact opened rfl absent
      next => exact .inl rfl
    | written => exact .inl (untouched _ _ (Ne.symm apart))
    | renamed =>
      refine .inl ((Function.update_of_ne ?_ _ _).trans (untouched _ _ ?_))
      · exact fun same => apart (.inl same)
      · exact fun same => apart (.inr same.symm)
    | _ => exact .inl rfl
  · cases fault with
    | someDirs _ part => exact made part rfl
    | opened _ _ absent => exact opened rfl absent
    | torn => exact .inl (untouched _ _ (Ne.symm apart))
    | failed => exact .inl rfl

theorem DiskServes.leaves {t t' : FileTree β} {req : DiskReq β} {answer : Except IoError req.Answer}
    (served : DiskServes t req answer t') {place : Path} (apart : place ∉ req.targets) :
    req.Leaves t t' place := by
  cases served with
  | fs served => exact served.leaves apart
  | removed => exact .inl (Function.update_of_ne apart _ _)
  | _ => exact .inl rfl

end Served

/-- What is there and no target stays. -/
theorem DiskReq.Leaves.keeps {req : DiskReq β} {t t' : FileTree β} {place : Path}
    (leaves : req.Leaves t t' place) (there : t place ≠ none) : t' place = t place := by
  rcases leaves with same | ⟨absent, -⟩
  · exact same
  · exact absurd absent there

end Gonzalo.Lib
