import Gonzalo.Git.Atomicity
import Gonzalo.Lib.Refinement

/-!
# The git store against the reference store

`GitStore` and `MemStore` ask the same planners. A clean repository whose files are the
records of a `MemStore` goes on as that store does: an operation that answers `Ok` answers
what the reference store does and leaves its records, and one that fails or dies before it
has moved anything leaves the records alone. This is about keys with a namespace and a
collection: the others share their files with one another.
-/

set_option autoImplicit false

namespace Gonzalo.Git
open Gonzalo.Core Gonzalo.Lib

variable {β : Type} [RecordJson β]

/-- The files of the worktree are the records of the store. -/
def Holds (w : Repo β) (s : MemStore) : Prop :=
  ∀ key, Fs.Nested key → RecordIn w.worktree (relPath key) (s.getRaw key)

/-- A file holds one record. -/
theorem RecordIn.unique {tree : Tree β} {path : Path} {found found' : Option Record}
    (read : RecordIn tree path found) (read' : RecordIn tree path found') : found = found' := by
  cases found with
  | none =>
    cases found' with
    | none => rfl
    | some r' =>
      obtain ⟨file, held, -⟩ := read'
      cases held.symm.trans (show tree[path]? = none from read)
  | some r =>
    obtain ⟨file, held, decoded⟩ := read
    cases found' with
    | none => cases held.symm.trans (show tree[path]? = none from read')
    | some r' =>
      obtain ⟨file', held', decoded'⟩ := read'
      cases held.symm.trans held'
      exact congrArg some (Except.ok.inj (decoded.symm.trans decoded'))

theorem Holds.insert {w : Repo β} {s : MemStore} (holds : Holds w s) (roundTrip : RoundTrip β)
    {record : Record} {file : β} (written : encode record = .ok file) {w' : Repo β}
    (worktree : w'.worktree = w.worktree.insert (relPath record.key) file) :
    Holds w' (s.insert record) := by
  intro key nested
  rw [MemStore.getRaw_insert, worktree]
  split
  next here =>
    subst here
    exact ⟨file, Std.ExtTreeMap.getElem?_insert_self, roundTrip record file written⟩
  next other =>
    have kept := holds key nested
    have apart : relPath key ≠ relPath record.key := fun same =>
      other (relPath_injective nested same).symm
    unfold RecordIn at kept ⊢
    rwa [getElem?_insert_other apart]

theorem Holds.erase {w : Repo β} {s : MemStore} (holds : Holds w s) {key : RecordKey}
    {w' : Repo β} (worktree : w'.worktree = w.worktree.erase (relPath key)) :
    Holds w' (s.erase key) := by
  intro key' nested
  rw [MemStore.getRaw_erase, worktree]
  split
  next here =>
    subst here
    exact Std.ExtTreeMap.getElem?_erase_self
  next other =>
    have kept := holds key' nested
    have apart : relPath key' ≠ relPath key := fun same =>
      other (relPath_injective nested same).symm
    unfold RecordIn at kept ⊢
    rwa [getElem?_erase_other apart]

theorem Holds.same {w w' : Repo β} {s : MemStore} (holds : Holds w s) (same : w.Same w') :
    Holds w' s := by
  intro key nested
  rw [same.worktree]
  exact holds key nested

omit [RecordJson β] in
theorem Advances.worktree {w w' : Repo β} {tree : Tree β} (advances : w.Advances tree w') :
    w'.worktree = tree := by
  obtain ⟨commit, rfl, -, arrives⟩ := advances
  exact arrives.worktree

section Runs

variable [Blake3]

/-- What the reference store answers an operation with, and where it goes. -/
inductive Follows (s : MemStore) (nowMs : Int) : (op : Operation) → op.Answer → MemStore → Prop
  | put {record : Record} {expected : Option Revision} {answer : PutResult}
      (answered : (s.put nowMs record expected).2 = .ok answer) :
      Follows s nowMs (.put record expected) answer (s.put nowMs record expected).1
  | putRaw {record : Record} {expected : Option Revision} {answer : PutResult}
      (answered : (s.putRaw nowMs record expected).2 = .ok answer) :
      Follows s nowMs (.putRaw record expected) answer (s.putRaw nowMs record expected).1
  | deleteAs {key : RecordKey} {expected : Option Revision} {author : Option Identity}
      {answer : DeleteResult} (answered : (s.deleteAs nowMs key expected author).2 = .ok answer) :
      Follows s nowMs (.deleteAs key expected author) answer
        (s.deleteAs nowMs key expected author).1
  | purge {key : RecordKey} {expected : Revision} {answer : DeleteResult}
      (answered : (s.purge key expected).2 = .ok answer) :
      Follows s nowMs (.purge key expected) answer (s.purge key expected).1

section Effects
variable {w w' : Repo β} {s : MemStore} {nowMs : Int}

omit [Blake3] in
/-- A conditional write does what the reference store does with the same planner. -/
theorem Holds.write (holds : Holds w s) (roundTrip : RoundTrip β) {plan : MemStore.PutPlanner}
    {record : Record} (nested : Fs.Nested record.key) {expected : Option Revision}
    {answer : PutResult} (effect : PutEffect plan nowMs s.cap w record expected answer w') :
    (s.write nowMs record expected plan).2 = .ok answer ∧
      Holds w' (s.write nowMs record expected plan).1 := by
  cases effect with
  | wrote read planned written advances =>
    obtain rfl := read.unique (holds record.key nested)
    simp only [MemStore.write, planned]
    refine ⟨trivial, holds.insert roundTrip written (Advances.worktree advances)⟩
  | refused read planned same =>
    obtain rfl := read.unique (holds record.key nested)
    simp only [MemStore.write, planned]
    exact ⟨trivial, holds.same same⟩

theorem Holds.deleteAs (holds : Holds w s) (roundTrip : RoundTrip β) {key : RecordKey}
    (nested : Fs.Nested key) {expected : Option Revision} {author : Option Identity}
    {answer : DeleteResult} (effect : DeleteEffect nowMs s.cap w key expected author answer w') :
    (s.deleteAs nowMs key expected author).2 = .ok answer ∧
      Holds w' (s.deleteAs nowMs key expected author).1 := by
  cases effect with
  | wrote read planned written advances =>
    obtain rfl := read.unique (holds key nested)
    simp only [MemStore.deleteAs, planned]
    exact ⟨trivial, holds.insert roundTrip written (Advances.worktree advances)⟩
  | idle read planned same =>
    obtain rfl := read.unique (holds key nested)
    simp only [MemStore.deleteAs, planned]
    exact ⟨trivial, holds.same same⟩
  | refused read planned same =>
    obtain rfl := read.unique (holds key nested)
    simp only [MemStore.deleteAs, planned]
    exact ⟨trivial, holds.same same⟩

omit [Blake3] in
theorem Holds.purge (holds : Holds w s) {key : RecordKey} (nested : Fs.Nested key)
    {expected : Revision} {answer : DeleteResult}
    (effect : PurgeEffect w key expected answer w') :
    (s.purge key expected).2 = .ok answer ∧ Holds w' (s.purge key expected).1 := by
  cases effect with
  | removed read planned advances =>
    obtain rfl := read.unique (holds key nested)
    simp only [MemStore.purge, planned]
    exact ⟨trivial, holds.erase (Advances.worktree advances)⟩
  | idle read planned same =>
    obtain rfl := read.unique (holds key nested)
    simp only [MemStore.purge, planned]
    exact ⟨trivial, holds.same same⟩
  | refused read planned same =>
    obtain rfl := read.unique (holds key nested)
    simp only [MemStore.purge, planned]
    exact ⟨trivial, holds.same same⟩

end Effects

/-! ## Runs -/

/-- One operation of a run, at a time of its own, and how it ended. -/
structure Event where
  op : Operation
  nowMs : Int
  outcome : Outcome op.Answer

variable [Serde]

/-- The key an operation is about; a pull is about the whole repository. -/
def Operation.key : Operation → Option RecordKey
  | put record _ | putRaw record _ => some record.key
  | deleteAs key _ _ | purge key _ => some key
  | pull _ _ => none

/-- The event is about one key with a namespace and a collection, and its faults strike early. -/
def Happens (cap : Nat) (event : Event) (w w' : Repo β) : Prop :=
  (∃ key, event.op.key = some key ∧ Fs.Nested key) ∧
    Attempt (earlyFaults β) w (event.op.program event.nowMs cap) w' event.outcome

omit [Serde] in
/-- An operation that answers `Ok` is answered so by the reference store, and any other one
leaves it alone. -/
def Matches (event : Event) (s s' : MemStore) : Prop :=
  (∃ answer, event.outcome = .returned (.ok answer) ∧
      Follows s event.nowMs event.op answer s') ∨
    (∀ answer, event.outcome ≠ .returned (.ok answer)) ∧ s' = s

omit [Serde] in
theorem Follows.cap {s s' : MemStore} {nowMs : Int} {op : Operation} {answer : op.Answer}
    (follows : Follows s nowMs op answer s') : s'.cap = s.cap := by
  cases follows with
  | @put record expected _ _ =>
    rcases s.put_effect nowMs record expected with ⟨w, -, done⟩ | ⟨same, -⟩
    · rw [done, MemStore.cap_insert]
    · rw [same]
  | @putRaw record expected _ _ =>
    rcases s.putRaw_effect nowMs record expected with ⟨-, done⟩ | ⟨same, -⟩
    · rw [done, MemStore.cap_insert]
    · rw [same]
  | @deleteAs key expected author _ _ =>
    rcases s.deleteAs_effect nowMs key expected author with ⟨c, -, -, -, done⟩ | same
    · rw [done, MemStore.cap_insert]
    · rw [same]
  | @purge key expected _ _ =>
    rcases s.purge_effect key expected with ⟨c, -, -, done⟩ | same
    · rw [done, MemStore.cap_erase]
    · rw [same]

/-- What an operation that answers has done, the reference store does. -/
theorem Holds.follows {w w' : Repo β} {s : MemStore} (holds : Holds w s) (roundTrip : RoundTrip β)
    {op : Operation} {key : RecordKey} (about : op.key = some key) (nested : Fs.Nested key)
    {nowMs : Int} {answer : op.Answer} (effect : op.Effect nowMs s.cap w answer w') :
    ∃ s', Follows s nowMs op answer s' ∧ Holds w' s' := by
  cases op with
  | put record expected =>
    cases about
    obtain ⟨answered, holds'⟩ := holds.write roundTrip nested effect
    exact ⟨_, .put answered, holds'⟩
  | putRaw record expected =>
    cases about
    obtain ⟨answered, holds'⟩ := holds.write roundTrip nested effect
    exact ⟨_, .putRaw answered, holds'⟩
  | deleteAs own expected author =>
    cases about
    obtain ⟨answered, holds'⟩ := holds.deleteAs roundTrip nested effect
    exact ⟨_, .deleteAs answered, holds'⟩
  | purge own expected =>
    cases about
    obtain ⟨answered, holds'⟩ := holds.purge nested effect
    exact ⟨_, .purge answered, holds'⟩
  | pull remote branch => cases about

/-- The repository is clean, and holds the records of the store. -/
structure Mirrors (cap : Nat) (w : Repo β) (s : MemStore) : Prop where
  clean : w.Clean
  cap_eq : s.cap = cap
  holds : Holds w s

theorem Mirrors.step {cap : Nat} {w w' : Repo β} {s : MemStore} (mirrors : Mirrors cap w s)
    (roundTrip : RoundTrip β) {event : Event} (happens : Happens cap event w w') :
    ∃ s', Matches event s s' ∧ Mirrors cap w' s' := by
  obtain ⟨⟨key, about, nested⟩, attempt⟩ := happens
  obtain ⟨clean, rfl, holds⟩ := mirrors
  rcases attempt_effect clean attempt with ⟨answer, ended, effect⟩ | ⟨failed, same⟩
  · obtain ⟨s', follows, holds'⟩ := holds.follows roundTrip about nested effect
    exact ⟨s', .inl ⟨answer, ended, follows⟩, effect.clean clean, follows.cap, holds'⟩
  · exact ⟨s, .inr ⟨failed, rfl⟩, same.clean clean, rfl, holds.same same⟩

omit [Blake3] [Serde] in
/-- A read of the repository answers with the record of the store. -/
theorem Holds.read {w w' : Repo β} {s : MemStore} (holds : Holds w s) {key : RecordKey}
    (nested : Fs.Nested key) {moved : Bool} {result : Except CoreError (Option Record)}
    (run : Program.Runs (Served (noFaults β)) (w, false) (Git.read key) (w', moved) result) :
    result = .ok (s.getRaw key) := by
  have read := holds key nested
  unfold Git.read at run
  obtain ⟨answer, v, served, later⟩ := Program.Runs.ask_iff.mp run
  cases served with
  | failed e fails => exact fails.elim
  | torn e tears checkout mixed => exact tears.elim
  | ok succeeds =>
    cases succeeds with
    | readFile =>
      cases found : s.getRaw key with
      | none =>
        rw [found] at read
        rw [show w.worktree[relPath key]? = none from read] at later
        exact (Program.Runs.done_iff.mp later).2
      | some record =>
        rw [found] at read
        obtain ⟨file, held, decoded⟩ := read
        rw [held] at later
        change Program.Runs _ _ (Program.ofExcept (decode file) >>= fun r => pure (some r)) _ _
          at later
        rw [decoded] at later
        exact (Program.Runs.done_iff.mp later).2

end Runs

section Concrete

attribute [local instance] sampleBlake3 plainSerde recordFiles

end Concrete

end Gonzalo.Git
