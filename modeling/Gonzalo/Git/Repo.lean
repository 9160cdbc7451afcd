import Gonzalo.Core.MemStore
import Gonzalo.Core.RecordJson
import Gonzalo.Fs.Layout

/-!
# A git repository of record files

What `gonzalo-store-git/src/lib.rs` asks of the file system and of libgit2, one step at
a time. The worktree, the index on disk and a commit's tree are maps from paths to file
contents, the lock file and the temporary ones apart. Contents are a type of their own,
with the JSON reader and writer of `serde_json` as its interface (`RecordJson`).

A step either succeeds, as `Succeeds` says, or fails and changes nothing, except that
a checkout may fail half way. `Faults` says which steps may fail, and when: the second
component of the world notes whether the running operation has already made a step
that moves the worktree, the index, a branch or HEAD.
-/

set_option autoImplicit false

namespace Gonzalo.Git
open Gonzalo.Core Gonzalo.Lib

/-- The files of a worktree, an index or a commit. -/
abbrev Tree (β : Type) : Type := Std.ExtTreeMap Path β compare

/-- A commit: what it holds, what it came from, and what else tells it apart. -/
inductive Commit (β : Type) where
  | mk (tree : Tree β) (parents : List (Commit β)) (message : String) (time : Int)

namespace Commit

variable {β : Type}

def tree : Commit β → Tree β
  | mk tree _ _ _ => tree

def parents : Commit β → List (Commit β)
  | mk _ parents _ _ => parents

/-- `old` is `new` or one of the commits `new` came from. -/
inductive Within : Commit β → Commit β → Prop
  | self (c : Commit β) : Within c c
  | parent {old mid new : Commit β} (listed : mid ∈ new.parents) (within : Within old mid) :
      Within old new

end Commit

/-- `merge_analysis`, as far as the store looks at it. -/
inductive Analysis where
  | upToDate | fastForward | normal
  deriving DecidableEq

/-- A path that differs between two trees. -/
structure Delta where
  path : Path
  deleted : Bool
  deriving DecidableEq

/-- The steps of the store's operations. -/
inductive GitReq (β : Type) where
  | lock
  | readFile (path : Path)
  | createDir (path : Path)
  | writeTemp (path : Path) (contents : β)
  | rename (path : Path) (contents : β)
  | fsyncDir (path : Path)
  | removeFile (path : Path)
  | openRepo
  | readIndex
  | addPath (path : Path)
  | editIndex
  | writeIndex (tree : Tree β)
  | writeTree (tree : Tree β)
  | signature
  | head
  | findCommit (commit : Commit β)
  | findTree (tree : Tree β)
  | readObject (contents : β)
  | commit (branch : Option String) (message : String) (tree : Tree β) (parents : List (Commit β))
  | findRemote (remote : String)
  | fetch (remote branch : String)
  | fetchHead
  | mergeAnalysis (commit : Commit β)
  | findReference (branch : String)
  | setTarget (branch : String) (commit : Commit β)
  | setHead (branch : String)
  | checkoutHead
  | mergeBase (ours theirs : Commit β)
  | diff (old : Option (Tree β)) (new : Tree β)
  | getPath (tree : Tree β) (path : Path)
  | checkoutTree (tree : Tree β)

namespace GitReq

variable {β : Type}

/-- What a step that succeeds answers. -/
def Found : GitReq β → Type
  | readFile _ => Option β
  | readIndex => Tree β
  | addPath _ => β
  | head => Option (Commit β)
  | fetchHead => Commit β
  | mergeAnalysis _ => Analysis
  | mergeBase _ _ => Option (Commit β)
  | diff _ _ => List Delta
  | getPath _ _ => Option β
  | _ => Unit

/-- The steps that move the worktree, the index, a branch or HEAD. -/
def moves : GitReq β → Bool
  | rename _ _ | removeFile _ | writeIndex _ | commit _ _ _ _ | setTarget _ _ | setHead _
  | checkoutHead | checkoutTree _ => true
  | _ => false

end GitReq

def gitInterface (β : Type) : Interface := ⟨GitReq β, fun req => Except CoreError req.Found⟩

abbrev GitProgram (β α : Type) : Type := Program (gitInterface β) CoreError α

/-- Take one step and propagate its error, as `?` does. -/
def step {β : Type} (req : GitReq β) : GitProgram β req.Found :=
  @Program.request (gitInterface β) _ req >>= .ofExcept

/-- Take one step and look at its error, as `.ok()` and a `match` do. -/
def attempt {β : Type} (req : GitReq β) : GitProgram β (Except CoreError req.Found) :=
  @Program.request (gitInterface β) _ req

structure Repo (β : Type) where
  worktree : Tree β
  index : Tree β
  branches : String → Option (Commit β)
  head : String
  fetched : Option (Commit β)

namespace Repo

variable {β : Type}

/-- The commit HEAD names; none on an unborn branch. -/
def headCommit (w : Repo β) : Option (Commit β) := w.branches w.head

/-- HEAD's tree. -/
def headTree (w : Repo β) : Tree β := w.headCommit.elim ∅ Commit.tree

/-- The worktree, the index and HEAD's tree hold the same files. -/
def Clean (w : Repo β) : Prop := w.worktree = w.headTree ∧ w.index = w.headTree

/-- Point a branch at a commit. -/
def setBranch (w : Repo β) (branch : String) (commit : Commit β) : Repo β :=
  { w with branches := Function.update w.branches branch (some commit) }

/-- A forced checkout: the worktree and the index become the tree. -/
def checkout (w : Repo β) (tree : Tree β) : Repo β := { w with worktree := tree, index := tree }

@[simp] theorem headCommit_setBranch (w : Repo β) (commit : Commit β) :
    (w.setBranch w.head commit).headCommit = some commit := by
  simp [headCommit, setBranch]

@[simp] theorem setBranch_head (w : Repo β) (branch : String) (commit : Commit β) :
    (w.setBranch branch commit).head = w.head := rfl

@[simp] theorem checkout_headTree (w : Repo β) (tree : Tree β) :
    (w.checkout tree).headTree = w.headTree := rfl

/-- What `diff_tree_to_tree` lists: each path that differs, once, in any order. -/
def Deltas (old : Option (Tree β)) (new : Tree β) (deltas : List Delta) : Prop :=
  (deltas.map Delta.path).Nodup ∧
    (∀ path, path ∈ deltas.map Delta.path ↔ (old.bind fun tree => tree[path]?) ≠ new[path]?) ∧
    ∀ delta ∈ deltas, delta.deleted = (new[delta.path]?).isNone

/-- A nearest common ancestor of two commits. -/
def MergeBase (ours theirs base : Commit β) : Prop :=
  (base.Within ours ∧ base.Within theirs) ∧
    ∀ other : Commit β, other.Within ours → other.Within theirs → base.Within other → other = base

/-- What a step that succeeds answers and does. -/
inductive Succeeds (w : Repo β) : (req : GitReq β) → req.Found → Repo β → Prop
  | lock : Succeeds w .lock () w
  | readFile (path : Path) : Succeeds w (.readFile path) w.worktree[path]? w
  | createDir (path : Path) : Succeeds w (.createDir path) () w
  | writeTemp (path : Path) (contents : β) : Succeeds w (.writeTemp path contents) () w
  | rename (path : Path) (contents : β) :
      Succeeds w (.rename path contents) () { w with worktree := w.worktree.insert path contents }
  | fsyncDir (path : Path) : Succeeds w (.fsyncDir path) () w
  | removeFile (path : Path) :
      Succeeds w (.removeFile path) () { w with worktree := w.worktree.erase path }
  | openRepo : Succeeds w .openRepo () w
  | readIndex : Succeeds w .readIndex w.index w
  | addPath {path : Path} {contents : β} (file : w.worktree[path]? = some contents) :
      Succeeds w (.addPath path) contents w
  | editIndex : Succeeds w .editIndex () w
  | writeIndex (tree : Tree β) : Succeeds w (.writeIndex tree) () { w with index := tree }
  | writeTree (tree : Tree β) : Succeeds w (.writeTree tree) () w
  | signature : Succeeds w .signature () w
  | head : Succeeds w .head w.headCommit w
  | findCommit (commit : Commit β) : Succeeds w (.findCommit commit) () w
  | findTree (tree : Tree β) : Succeeds w (.findTree tree) () w
  | readObject (contents : β) : Succeeds w (.readObject contents) () w
  | commit {branch : Option String} {message : String} {tree : Tree β} {parents : List (Commit β)}
      (time : Int)
      (first : ∀ tip, w.branches (branch.getD w.head) = some tip → parents.head? = some tip) :
      Succeeds w (.commit branch message tree parents) ()
        (w.setBranch (branch.getD w.head) (.mk tree parents message time))
  | findRemote (remote : String) : Succeeds w (.findRemote remote) () w
  | fetch (remote branch : String) (commit : Commit β) :
      Succeeds w (.fetch remote branch) () { w with fetched := some commit }
  | fetchHead {commit : Commit β} (fetched : w.fetched = some commit) :
      Succeeds w .fetchHead commit w
  | upToDate {commit tip : Commit β} (tip_eq : w.headCommit = some tip) (within : commit.Within tip) :
      Succeeds w (.mergeAnalysis commit) .upToDate w
  | fastForward {commit : Commit β} (behind : ∀ tip, w.headCommit = some tip →
      tip.Within commit ∧ ¬ commit.Within tip) : Succeeds w (.mergeAnalysis commit) .fastForward w
  | normal {commit tip : Commit β} (tip_eq : w.headCommit = some tip)
      (apart : ¬ tip.Within commit ∧ ¬ commit.Within tip) :
      Succeeds w (.mergeAnalysis commit) .normal w
  | findReference {branch : String} (born : (w.branches branch).isSome) :
      Succeeds w (.findReference branch) () w
  | setTarget (branch : String) (commit : Commit β) :
      Succeeds w (.setTarget branch commit) () (w.setBranch branch commit)
  | setHead (branch : String) : Succeeds w (.setHead branch) () { w with head := branch }
  | checkoutHead : Succeeds w .checkoutHead () (w.checkout w.headTree)
  | mergeBase {ours theirs base : Commit β} (nearest : MergeBase ours theirs base) :
      Succeeds w (.mergeBase ours theirs) (some base) w
  | unrelated {ours theirs : Commit β}
      (apart : ∀ c : Commit β, ¬ (c.Within ours ∧ c.Within theirs)) :
      Succeeds w (.mergeBase ours theirs) none w
  | diff {old : Option (Tree β)} {new : Tree β} {deltas : List Delta} (lists : Deltas old new deltas) :
      Succeeds w (.diff old new) deltas w
  | getPath (tree : Tree β) (path : Path) : Succeeds w (.getPath tree path) tree[path]? w
  | checkoutTree (tree : Tree β) : Succeeds w (.checkoutTree tree) () (w.checkout tree)

/-- The tree a checkout is about to bring to the worktree. -/
def target (w : Repo β) : GitReq β → Option (Tree β)
  | .checkoutHead => some w.headTree
  | .checkoutTree tree => some tree
  | _ => none

end Repo

/-- Which steps may fail, and when the process may die, given whether the operation has
moved anything yet; and whether a failing checkout may have updated some files. -/
structure Faults (β : Type) where
  fails : GitReq β → Bool → Prop
  dies : Bool → Prop
  tears : Prop

/-- No step fails. -/
def noFaults (β : Type) : Faults β := ⟨fun _ _ => False, fun _ => False, False⟩

/-- How a step may be answered. -/
inductive Served {β : Type} (faults : Faults β) :
    Repo β × Bool → (req : GitReq β) → Except CoreError req.Found → Repo β × Bool → Prop
  | ok {w w' : Repo β} {moved : Bool} {req : GitReq β} {found : req.Found}
      (succeeds : w.Succeeds req found w') :
      Served faults (w, moved) req (.ok found) (w', moved || req.moves)
  | failed {w : Repo β} {moved : Bool} {req : GitReq β} (e : CoreError)
      (fails : faults.fails req moved) : Served faults (w, moved) req (.error e) (w, moved)
  | torn {w : Repo β} {moved : Bool} {req : GitReq β} {goal : Tree β} {worktree : Tree β}
      (e : CoreError) (tears : faults.tears) (checkout : w.target req = some goal)
      (mixed : ∀ path : Path, worktree[path]? = w.worktree[path]? ∨ worktree[path]? = goal[path]?) :
      Served faults (w, moved) req (.error e) ({ w with worktree := worktree }, true)

/-- How an operation may end: it returns, or the process dies between two steps. -/
inductive Outcome (α : Type) where
  | returned (result : Except CoreError α)
  | crashed

/-- A run of one operation, which starts out having moved nothing. -/
inductive Attempt {β α : Type} (faults : Faults β) (w : Repo β) (p : GitProgram β α) :
    Repo β → Outcome α → Prop
  | returned {w' : Repo β} {moved : Bool} {result : Except CoreError α}
      (run : Program.Runs (Served faults) (w, false) p (w', moved) result) :
      Attempt faults w p w' (.returned result)
  | crashed {w' : Repo β} {moved : Bool}
      (run : Program.Cut (Served faults) (w, false) p (w', moved))
      (dies : faults.dies moved) : Attempt faults w p w' .crashed

end Gonzalo.Git
