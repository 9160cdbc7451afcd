import Gonzalo.Git.Merge

/-!
# Operations that fail half way

`put_locked`, `delete_as`, `purge` and `git_pull` of `gonzalo-store-git/src/lib.rs` move
the worktree, the index, a branch and HEAD in separate steps, and nothing takes the
first of them back when a later one fails. `earlyFaults` are the failures and crashes that
strike before an operation has moved anything: under these an operation has its whole
effect or none, and what stands in a file goes on through `FileStep`s only.
-/

set_option autoImplicit false

namespace Gonzalo.Git
open Gonzalo.Core Gonzalo.Lib

/-- Steps fail and the process dies only before the operation has moved anything, and no
path lookup fails, which the store would take for an absent path. -/
def earlyFaults (β : Type) : Faults β where
  fails req moved := moved = false ∧ ∀ tree path, req ≠ .getPath tree path
  dies moved := moved = false
  tears := False

/-! ## Operations and their effects -/

inductive Operation where
  | put (record : Record) (expected : Option Revision)
  | putRaw (record : Record) (expected : Option Revision)
  | deleteAs (key : RecordKey) (expected : Option Revision) (author : Option Identity)
  | purge (key : RecordKey) (expected : Revision)
  | pull (remote branch : String)

namespace Operation

/-- What an operation that succeeds answers. -/
def Answer : Operation → Type
  | put _ _ | putRaw _ _ => PutResult
  | deleteAs _ _ _ | purge _ _ => DeleteResult
  | pull _ _ => PullReport

/-- The steps of an operation. -/
def program {β : Type} [RecordJson β] [Blake3] [Serde] (nowMs : Int) (cap : Nat) :
    (op : Operation) → GitProgram β op.Answer
  | put record expected => putLocked record expected planPut nowMs cap
  | putRaw record expected => putLocked record expected planPutRaw nowMs cap
  | deleteAs key expected author => Git.deleteAs key expected author nowMs cap
  | purge key expected => Git.purge key expected
  | pull remote branch => gitPull remote branch cap

end Operation

namespace Repo

variable {β : Type}

/-- Nothing has changed but what was fetched. -/
def Same (w w' : Repo β) : Prop := ∃ fetched, w' = { w with fetched := fetched }

/-- HEAD names `branch`, which has come to `commit`, and the worktree and the index hold
its tree. -/
def Arrives (w : Repo β) (branch : String) (commit : Commit β) (w' : Repo β) : Prop :=
  ∃ fetched, w' =
    { (w.checkout commit.tree).setBranch branch commit with head := branch, fetched := fetched }

/-- A commit of `tree` on top of what HEAD names. -/
def Advances (w : Repo β) (tree : Tree β) (w' : Repo β) : Prop :=
  ∃ commit : Commit β, commit.tree = tree ∧ commit.parents = w.headCommit.toList ∧
    w.Arrives w.head commit w'

variable {w w' w'' : Repo β}

theorem Same.refl (w : Repo β) : w.Same w := ⟨w.fetched, rfl⟩

theorem Same.trans (first : w.Same w') (second : w'.Same w'') : w.Same w'' := by
  obtain ⟨_, rfl⟩ := first
  obtain ⟨fetched, rfl⟩ := second
  exact ⟨fetched, rfl⟩

theorem Same.clean (same : w.Same w') (clean : w.Clean) : w'.Clean := by
  obtain ⟨_, rfl⟩ := same
  exact clean

theorem Same.worktree (same : w.Same w') : w'.worktree = w.worktree := by
  obtain ⟨_, rfl⟩ := same
  rfl

theorem Same.headCommit (same : w.Same w') : w'.headCommit = w.headCommit := by
  obtain ⟨_, rfl⟩ := same
  rfl

theorem Arrives.headCommit {branch : String} {commit : Commit β}
    (arrives : w.Arrives branch commit w') : w'.headCommit = some commit := by
  obtain ⟨_, rfl⟩ := arrives
  simp [Repo.headCommit, setBranch]

theorem Arrives.worktree {branch : String} {commit : Commit β}
    (arrives : w.Arrives branch commit w') : w'.worktree = commit.tree := by
  obtain ⟨_, rfl⟩ := arrives
  rfl

theorem Arrives.clean {branch : String} {commit : Commit β}
    (arrives : w.Arrives branch commit w') : w'.Clean := by
  have tip : w'.headTree = commit.tree := by simp [headTree, arrives.headCommit]
  obtain ⟨_, rfl⟩ := arrives
  exact ⟨tip.symm, tip.symm⟩

/-- A step that moves nothing at most fetches. -/
theorem Succeeds.same {req : GitReq β} {found : req.Found} (succeeds : w.Succeeds req found w')
    (still : req.moves = false) : w.Same w' := by
  cases succeeds with
  | fetch remote branch commit => exact ⟨some commit, rfl⟩
  | rename | removeFile | writeIndex | commit | setTarget | setHead | checkoutHead | checkoutTree =>
    cases still
  | _ => exact .refl _

end Repo

section Effects

variable {β : Type} [RecordJson β]

/-- The effect of a conditional write with `plan`. -/
inductive PutEffect (plan : MemStore.PutPlanner) (nowMs : Int) (cap : Nat) (w : Repo β)
    (record : Record) (expected : Option Revision) : PutResult → Repo β → Prop
  | wrote {current : Option Record} {stored : Record} {file : β} {w' : Repo β}
      (read : RecordIn w.worktree (relPath record.key) current)
      (planned : plan current record expected nowMs cap = .write stored)
      (written : encode stored = .ok file)
      (advances : w.Advances (w.worktree.insert (relPath stored.key) file) w') :
      PutEffect plan nowMs cap w record expected (.committed stored.revision) w'
  | refused {current : Option Record} {conflict : Conflict} {w' : Repo β}
      (read : RecordIn w.worktree (relPath record.key) current)
      (planned : plan current record expected nowMs cap = .conflict conflict)
      (same : w.Same w') : PutEffect plan nowMs cap w record expected (.conflict conflict) w'

variable [Blake3]

/-- The effect of a delete. -/
inductive DeleteEffect (nowMs : Int) (cap : Nat) (w : Repo β) (key : RecordKey)
    (expected : Option Revision) (author : Option Identity) : DeleteResult → Repo β → Prop
  | wrote {current : Option Record} {tombstone : Record} {file : β} {w' : Repo β}
      (read : RecordIn w.worktree (relPath key) current)
      (planned : planDelete current expected nowMs cap author = .write tombstone)
      (written : encode tombstone = .ok file)
      (advances : w.Advances (w.worktree.insert (relPath tombstone.key) file) w') :
      DeleteEffect nowMs cap w key expected author .deleted w'
  | idle {current : Option Record} {w' : Repo β} (read : RecordIn w.worktree (relPath key) current)
      (planned : planDelete current expected nowMs cap author = .noop) (same : w.Same w') :
      DeleteEffect nowMs cap w key expected author .deleted w'
  | refused {current : Option Record} {conflict : Conflict} {w' : Repo β}
      (read : RecordIn w.worktree (relPath key) current)
      (planned : planDelete current expected nowMs cap author = .conflict conflict)
      (same : w.Same w') : DeleteEffect nowMs cap w key expected author (.conflict conflict) w'

omit [Blake3] in
/-- The effect of a purge. -/
inductive PurgeEffect (w : Repo β) (key : RecordKey) (expected : Revision) :
    DeleteResult → Repo β → Prop
  | removed {current : Option Record} {w' : Repo β} (read : RecordIn w.worktree (relPath key) current)
      (planned : planPurge current expected = .remove)
      (advances : w.Advances (w.worktree.erase (relPath key)) w') : PurgeEffect w key expected .deleted w'
  | idle {current : Option Record} {w' : Repo β} (read : RecordIn w.worktree (relPath key) current)
      (planned : planPurge current expected = .noop) (same : w.Same w') :
      PurgeEffect w key expected .deleted w'
  | refused {current : Option Record} {conflict : Conflict} {w' : Repo β}
      (read : RecordIn w.worktree (relPath key) current)
      (planned : planPurge current expected = .conflict conflict) (same : w.Same w') :
      PurgeEffect w key expected (.conflict conflict) w'

variable [Serde]

omit [RecordJson β] [Blake3] [Serde] in
/-- No base, or the tree of a commit that both sides came from. -/
def CommonBase (ours theirs : Commit β) (base : Option (Tree β)) : Prop :=
  ∀ tree, base = some tree → ∃ c : Commit β, (c.Within ours ∧ c.Within theirs) ∧ c.tree = tree

/-- The effect of a pull of `branch`. -/
inductive PullEffect (cap : Nat) (w : Repo β) (branch : String) : PullReport → Repo β → Prop
  | upToDate {w' : Repo β} (same : w.Same w') : PullEffect cap w branch {} w'
  | fastForward {theirs : Commit β} {w' : Repo β}
      (behind : ∀ tip, w.headCommit = some tip → tip.Within theirs)
      (arrives : w.Arrives branch theirs w') :
      PullEffect cap w branch { fastForwarded := true } w'
  | merged {ours theirs commit : Commit β} {base : Option (Tree β)} {paths : List Path}
      {state : Path → PathState β} {s : MergeState β} {w' : Repo β}
      (tip : w.headCommit = some ours) (common : CommonBase ours theirs base)
      (reconciles : Reconciles base ours.tree theirs.tree cap paths state s)
      (tree : commit.tree = s.index) (parents : commit.parents = [ours, theirs])
      (arrives : w.Arrives branch commit w') : PullEffect cap w branch s.report w'

/-- What an operation that answers has done to the repository. -/
def Operation.Effect (nowMs : Int) (cap : Nat) (w : Repo β) :
    (op : Operation) → op.Answer → Repo β → Prop
  | put record expected => PutEffect planPut nowMs cap w record expected
  | putRaw record expected => PutEffect planPutRaw nowMs cap w record expected
  | deleteAs key expected author => DeleteEffect nowMs cap w key expected author
  | purge key expected => PurgeEffect w key expected
  | pull _ branch => PullEffect cap w branch

end Effects

/-! ## All or nothing -/

/-- An error changed nothing, and an answer comes with its effect. -/
def Atomic {β α : Type} (w : Repo β) (Q : α → Repo β → Prop) :
    Repo β × Bool → Except CoreError α → Prop
  | v, .ok value => Q value v.1
  | v, .error _ => w.Same v.1

section Rules

variable {β α γ : Type} {w u : Repo β} {Q : γ → Repo β → Prop}

/-- A step before anything has moved. -/
theorem Atomic.step (same : w.Same u) {req : GitReq β} {f : req.Found → GitProgram β γ}
    (found : ∀ found u', u.Succeeds req found u' →
      Wp (gitContract (earlyFaults β)) (Atomic w Q) (u', req.moves) (f found)) :
    Wp (gitContract (earlyFaults β)) (Atomic w Q) (u, false) (Git.step req >>= f) := by
  refine ⟨trivial, fun answer v' served => ?_⟩
  cases served with
  | ok succeeds => exact found _ _ succeeds
  | failed e fails => exact same
  | torn e tears checkout mixed => exact tears.elim

/-- A part that only looks, before anything has moved. -/
theorem Atomic.quiet (same : w.Same u) {P : α → Prop} {p : GitProgram β α}
    {f : α → GitProgram β γ}
    (first : Wp (gitContract (earlyFaults β)) (Quiet (u, false) P) (u, false) p)
    (second : ∀ value, P value →
      Wp (gitContract (earlyFaults β)) (Atomic w Q) (u, false) (f value)) :
    Wp (gitContract (earlyFaults β)) (Atomic w Q) (u, false) (p >>= f) := by
  refine first.bind ?_ ?_
  · rintro _ value ⟨rfl, holds⟩
    exact second value (holds value rfl)
  · rintro _ e ⟨rfl, -⟩
    exact same

/-- Once something has moved no step fails. -/
theorem sure_step {post : Repo β × Bool → Except CoreError γ → Prop} {req : GitReq β}
    {f : req.Found → GitProgram β γ}
    (found : ∀ found u', u.Succeeds req found u' →
      Wp (gitContract (earlyFaults β)) post (u', true) (f found)) :
    Wp (gitContract (earlyFaults β)) post (u, true) (Git.step req >>= f) := by
  refine ⟨trivial, fun answer v' served => ?_⟩
  cases served with
  | ok succeeds => exact found _ _ succeeds
  | failed e fails => cases fails.1
  | torn e tears checkout mixed => exact tears.elim

theorem sure_attempt {post : Repo β × Bool → Except CoreError γ → Prop} {req : GitReq β}
    {f : Except CoreError req.Found → GitProgram β γ}
    (found : ∀ found u', u.Succeeds req found u' →
      Wp (gitContract (earlyFaults β)) post (u', true) (f (.ok found))) :
    Wp (gitContract (earlyFaults β)) post (u, true) (Git.attempt req >>= f) := by
  refine ⟨trivial, fun answer v' served => ?_⟩
  cases served with
  | ok succeeds => exact found _ _ succeeds
  | failed e fails => cases fails.1
  | torn e tears checkout mixed => exact tears.elim

end Rules

section Operations

variable {β : Type} {w : Repo β}

/-- The commit at the end of a write takes HEAD's commit as its parent. -/
theorem wp_commitIndex {u : Repo β} (index : Tree β) (message : String)
    {post : Repo β × Bool → Except CoreError Unit → Prop}
    (committed : ∀ time, post
      ({ u with index := index }.setBranch u.head (.mk index u.headCommit.toList message time), true)
      (.ok ())) :
    Wp (gitContract (earlyFaults β)) post (u, true) (commitIndex index message) := by
  refine sure_step ?_
  rintro _ _ ⟨⟩
  refine sure_step ?_
  rintro _ _ ⟨⟩
  refine sure_step ?_
  rintro _ _ ⟨⟩
  refine sure_step ?_
  rintro _ _ ⟨⟩
  have parent : Wp (gitContract (earlyFaults β))
      (fun v result => v = ({ u with index := index }, true) ∧ result = .ok u.headCommit)
      ({ u with index := index }, true) headParent := by
    refine sure_attempt ?_
    rintro _ _ ⟨⟩
    cases tip : ({ u with index := index } : Repo β).headCommit with
    | none => exact ⟨rfl, congrArg Except.ok tip.symm⟩
    | some commit =>
      refine sure_attempt ?_
      rintro _ _ ⟨⟩
      exact ⟨rfl, congrArg Except.ok tip.symm⟩
  refine parent.bind ?_ ?_
  · rintro _ _ ⟨rfl, ⟨⟩⟩
    refine ⟨trivial, fun answer v' served => ?_⟩
    cases served with
    | ok succeeds =>
      cases succeeds with
      | commit time first => exact committed time
    | failed e fails => cases fails.1
    | torn e tears checkout mixed => exact tears.elim
  · rintro _ e ⟨-, ⟨⟩⟩

/-- `write_and_commit` on a clean repository. -/
theorem wp_writeAndCommit [RecordJson β] (clean : w.Clean) (record : Record) (message : String) :
    Wp (gitContract (earlyFaults β))
      (Atomic w fun _ w' => ∃ file, encode record = .ok file ∧
        w.Advances (w.worktree.insert (relPath record.key) file) w') (w, false)
      (writeAndCommit record message) := by
  have same := Repo.Same.refl w
  refine Atomic.step same ?_
  rintro _ _ ⟨⟩
  cases written : (encode record : Except CoreError β) with
  | error e => exact same
  | ok file =>
    simp only [Program.ofExcept_ok, Program.done_bind, writeAtomic, commitFile]
    refine Wp.assoc (Atomic.step same ?_)
    rintro _ _ ⟨⟩
    refine Wp.assoc (Atomic.step same ?_)
    rintro _ _ ⟨⟩
    refine sure_step ?_
    rintro _ _ ⟨⟩
    refine sure_step ?_
    rintro _ _ ⟨⟩
    refine sure_step ?_
    rintro _ _ ⟨⟩
    refine sure_step ?_
    intro contents _ succeeds
    cases succeeds with
    | addPath found =>
      have own : some file = some contents := Std.ExtTreeMap.getElem?_insert_self.symm.trans found
      cases own
      refine wp_commitIndex _ _ fun time => ⟨file, rfl, ?_⟩
      have index : w.index = w.worktree := clean.2.trans clean.1.symm
      refine ⟨.mk (w.worktree.insert (relPath record.key) file) w.headCommit.toList message time,
        rfl, rfl, w.fetched, ?_⟩
      simp only [index]
      rfl

/-- `remove_and_commit` on a clean repository. -/
theorem wp_removeAndCommit (clean : w.Clean) (key : RecordKey) (message : String) :
    Wp (gitContract (earlyFaults β))
      (Atomic w fun _ w' => w.Advances (w.worktree.erase (relPath key)) w') (w, false)
      (removeAndCommit key message) := by
  refine Atomic.step (.refl w) ?_
  rintro _ _ ⟨⟩
  refine sure_step ?_
  rintro _ _ ⟨⟩
  refine sure_step ?_
  rintro _ _ ⟨⟩
  refine sure_step ?_
  rintro _ _ ⟨⟩
  refine wp_commitIndex _ _ fun time => ?_
  have index : w.index = w.worktree := clean.2.trans clean.1.symm
  refine ⟨.mk (w.worktree.erase (relPath key)) w.headCommit.toList message time, rfl, rfl,
    w.fetched, ?_⟩
  simp only [index]
  rfl

theorem wp_read [RecordJson β] {faults : Faults β} {v : Repo β × Bool} (key : RecordKey) :
    Wp (gitContract faults) (Quiet v (RecordIn v.1.worktree (relPath key))) v (read key) := by
  obtain ⟨w, moved⟩ := v
  refine Quiet.step rfl (by rintro _ _ ⟨⟩; rfl) fun found succeeds => ?_
  cases succeeds
  cases stored : w.worktree[relPath key]? with
  | none => exact Quiet.done stored
  | some contents => exact Quiet.ofExcept fun record read => Quiet.done ⟨contents, stored, read⟩

theorem wp_putLocked [RecordJson β] (clean : w.Clean) (record : Record)
    (expected : Option Revision) (plan : MemStore.PutPlanner) (nowMs : Int) (cap : Nat) :
    Wp (gitContract (earlyFaults β)) (Atomic w (PutEffect plan nowMs cap w record expected))
      (w, false) (putLocked record expected plan nowMs cap) := by
  have same := Repo.Same.refl w
  refine Atomic.step same ?_
  rintro _ _ ⟨⟩
  refine Atomic.quiet same (wp_read record.key) fun current read => ?_
  cases planned : plan current record expected nowMs cap with
  | write stored =>
    refine (wp_writeAndCommit clean stored _).bind ?_ fun _ _ same => same
    rintro v _ ⟨file, written, advances⟩
    exact .wrote read planned written advances
  | conflict conflict => exact .refused read planned same
  | notFound => exact same
  | rejected reason => exact same

theorem wp_deleteAs [RecordJson β] [Blake3] (clean : w.Clean) (key : RecordKey)
    (expected : Option Revision) (author : Option Identity) (nowMs : Int) (cap : Nat) :
    Wp (gitContract (earlyFaults β)) (Atomic w (DeleteEffect nowMs cap w key expected author))
      (w, false) (deleteAs key expected author nowMs cap) := by
  have same := Repo.Same.refl w
  refine Atomic.step same ?_
  rintro _ _ ⟨⟩
  refine Atomic.quiet same (wp_read key) fun current read => ?_
  cases planned : planDelete current expected nowMs cap author with
  | write tombstone =>
    refine (wp_writeAndCommit clean tombstone _).bind ?_ fun _ _ same => same
    rintro v _ ⟨file, written, advances⟩
    exact .wrote read planned written advances
  | noop => exact .idle read planned same
  | conflict conflict => exact .refused read planned same

theorem wp_purge [RecordJson β] (clean : w.Clean) (key : RecordKey) (expected : Revision) :
    Wp (gitContract (earlyFaults β)) (Atomic w (PurgeEffect w key expected)) (w, false)
      (purge key expected) := by
  have same := Repo.Same.refl w
  refine Atomic.step same ?_
  rintro _ _ ⟨⟩
  refine Atomic.quiet same (wp_read key) fun current read => ?_
  cases planned : planPurge current expected with
  | remove =>
    refine (wp_removeAndCommit clean key _).bind ?_ fun _ _ same => same
    rintro v _ advances
    exact .removed read planned advances
  | noop => exact .idle read planned same
  | conflict conflict => exact .refused read planned same

theorem wp_mergeBaseTree {faults : Faults β} {v : Repo β × Bool} (ours theirs : Commit β) :
    Wp (gitContract faults) (Quiet v (CommonBase ours theirs)) v (mergeBaseTree ours theirs) := by
  obtain ⟨w, moved⟩ := v
  have none : CommonBase ours theirs none := by
    rintro _ ⟨⟩
  refine Quiet.attempt rfl (by rintro _ _ ⟨⟩ <;> rfl) ?_ fun e _ => Quiet.done none
  intro found succeeds
  cases succeeds with
  | mergeBase nearest =>
    refine Quiet.step rfl (by rintro _ _ ⟨⟩; rfl) fun _ _ => ?_
    refine Quiet.step rfl (by rintro _ _ ⟨⟩; rfl) fun _ _ => Quiet.done ?_
    rintro _ ⟨⟩
    exact ⟨_, nearest.1, rfl⟩
  | unrelated apart => exact Quiet.done none

theorem earlyFaults_looksUp : (earlyFaults β).LooksUp :=
  fun tree path _ fails => fails.2 tree path rfl

theorem wp_mergeNonFf [RecordJson β] [Blake3] [Serde] {u : Repo β} (same : w.Same u)
    (remote branch : String) (theirs : Commit β) (cap : Nat) :
    Wp (gitContract (earlyFaults β)) (Atomic w (PullEffect cap w branch)) (u, false)
      (mergeNonFf remote branch theirs cap) := by
  refine Atomic.step same ?_
  rintro _ _ ⟨⟩
  cases tip : u.headCommit with
  | none => exact same
  | some ours =>
    refine Atomic.step same ?_
    rintro _ _ ⟨⟩
    refine Atomic.step same ?_
    rintro _ _ ⟨⟩
    refine Atomic.step same ?_
    rintro _ _ ⟨⟩
    refine Atomic.step same ?_
    rintro _ _ ⟨⟩
    refine Atomic.quiet same (wp_mergeBaseTree ours theirs) fun base common => ?_
    refine Atomic.step same ?_
    rintro _ _ ⟨⟩
    refine Atomic.step same ?_
    rintro _ _ ⟨⟩
    refine Atomic.quiet same (wp_mergeTrees earlyFaults_looksUp base ours.tree theirs.tree cap)
      fun s ⟨paths, state, reconciles⟩ => ?_
    refine Atomic.step same ?_
    rintro _ _ ⟨⟩
    refine Atomic.step same ?_
    rintro _ _ ⟨⟩
    refine Atomic.step same ?_
    rintro _ _ ⟨⟩
    refine sure_step ?_
    rintro _ _ ⟨⟩
    refine sure_step ?_
    intro _ _ succeeds
    cases succeeds with
    | commit time first =>
      refine sure_step ?_
      rintro _ _ ⟨⟩
      obtain ⟨fetched, rfl⟩ := same
      have tree : (Commit.mk s.index [ours, theirs] ("merge " ++ remote ++ "/" ++ branch)
        time).tree = s.index := rfl
      exact .merged tip common reconciles tree rfl ⟨fetched, rfl⟩

theorem wp_gitPull [RecordJson β] [Blake3] [Serde] (remote branch : String) (cap : Nat) :
    Wp (gitContract (earlyFaults β)) (Atomic w (PullEffect cap w branch)) (w, false)
      (gitPull remote branch cap) := by
  refine Atomic.step (.refl w) ?_
  rintro _ _ ⟨⟩
  refine Atomic.step (.refl w) ?_
  rintro _ _ ⟨⟩
  refine Atomic.step (.refl w) ?_
  rintro _ _ ⟨⟩
  refine Atomic.step (.refl w) ?_
  intro _ _ succeeds
  cases succeeds with
  | fetch _ _ commit =>
    have same : w.Same { w with fetched := some commit } := ⟨_, rfl⟩
    refine Atomic.step same ?_
    intro theirs _ succeeds
    cases succeeds
    refine Atomic.step same ?_
    intro analysis _ succeeds
    cases succeeds with
    | upToDate _ _ => exact .upToDate same
    | normal _ _ => exact wp_mergeNonFf same remote branch theirs cap
    | fastForward behind =>
      refine Atomic.step same ?_
      rintro _ _ ⟨⟩
      refine Atomic.step same ?_
      rintro _ _ ⟨⟩
      refine sure_step ?_
      rintro _ _ ⟨⟩
      refine sure_step ?_
      rintro _ _ ⟨⟩
      refine .fastForward (fun tip at_tip => (behind tip at_tip).1) ⟨some commit, ?_⟩
      simp only [Repo.setBranch, Repo.checkout, Repo.headTree, Repo.headCommit,
        Function.update_self]
      rfl

/-- An operation on a clean repository has its effect or none. -/
theorem wp_program [RecordJson β] [Blake3] [Serde] (clean : w.Clean) (op : Operation)
    (nowMs : Int) (cap : Nat) :
    Wp (gitContract (earlyFaults β)) (Atomic w (op.Effect nowMs cap w)) (w, false)
      (op.program nowMs cap) := by
  cases op with
  | put record expected => exact wp_putLocked clean record expected planPut nowMs cap
  | putRaw record expected => exact wp_putLocked clean record expected planPutRaw nowMs cap
  | deleteAs key expected author => exact wp_deleteAs clean key expected author nowMs cap
  | purge key expected => exact wp_purge clean key expected
  | pull remote branch => exact wp_gitPull remote branch cap

/-- A process that dies before anything has moved leaves all as it was. -/
theorem cut_same {α : Type} {p : GitProgram β α} {w' : Repo β}
    (run : Program.Cut (Served (earlyFaults β)) (w, false) p (w', false)) : w.Same w' := by
  let kept : Repo β × Bool → Prop := fun v => v.2 = false → w.Same v.1
  have ended : kept (w', false) := run.invariant ?_ fun _ => .refl w
  · exact ended rfl
  rintro v req answer v' holds served still
  cases served with
  | ok succeeds =>
    obtain ⟨unmoved, quiet⟩ := Bool.or_eq_false_iff.mp still
    exact (holds unmoved).trans (succeeds.same quiet)
  | failed e fails => exact holds still
  | torn e tears checkout mixed => exact tears.elim

end Operations

/-! ## Runs -/

section Runs

variable {β : Type} [RecordJson β] [Blake3] [Serde] {cap : Nat} {w w' : Repo β}

/-- A delete finds in the file of its key no record whose own key lies elsewhere. -/
def Operation.Fits (w : Repo β) : Operation → Prop
  | deleteAs key _ _ => ∀ record, RecordIn w.worktree (relPath key) (some record) →
      relPath record.key = relPath key
  | _ => True

/-- One operation of a run, however it ends. -/
def Turn (faults : Faults β) (cap : Nat) (w w' : Repo β) : Prop :=
  ∃ (op : Operation) (nowMs : Int) (outcome : Outcome op.Answer),
    op.Fits w ∧ Attempt faults w (op.program nowMs cap) w' outcome

/-- What may follow a file at its path: what a planner that read the file's record writes,
and what a pull takes from a commit that came from this one, or from a merge. -/
inductive FileStep (cap : Nat) (path : Path) : Option β → Option β → Prop
  | put {tree : Tree β} {current : Option Record} {record stored : Record}
      {expected : Option Revision} {plan : MemStore.PutPlanner} {nowMs : Int} {file : β}
      (planner : plan = planPut ∨ plan = planPutRaw) (read : RecordIn tree path current)
      (own : relPath record.key = path) (planned : plan current record expected nowMs cap = .write stored)
      (written : encode stored = .ok file) : FileStep cap path tree[path]? (some file)
  | delete {tree : Tree β} {current : Option Record} {tombstone : Record}
      {expected : Option Revision} {author : Option Identity} {nowMs : Int} {file : β}
      (read : RecordIn tree path current)
      (planned : planDelete current expected nowMs cap author = .write tombstone)
      (written : encode tombstone = .ok file) : FileStep cap path tree[path]? (some file)
  | purge {tree : Tree β} {current : Option Record} {expected : Revision}
      (read : RecordIn tree path current) (planned : planPurge current expected = .remove) :
      FileStep cap path tree[path]? none
  | fastForward {ours theirs : Commit β} (behind : ours.Within theirs) :
      FileStep cap path ours.tree[path]? theirs.tree[path]?
  | first (theirs : Commit β) : FileStep cap path none theirs.tree[path]?
  | merged {ours theirs : Commit β} {base : Option (Tree β)} {state : PathState β}
      (common : CommonBase ours theirs base)
      (decided : PathMerged base ours.tree theirs.tree cap path state) :
      FileStep cap path ours.tree[path]? state.file

omit [RecordJson β] [Blake3] [Serde] in
theorem Commit.Within.trans {a b c : Commit β} (first : a.Within b) (second : b.Within c) :
    a.Within c := by
  induction second with
  | self => exact first
  | parent listed _ ih => exact .parent listed ih

/-- The files and HEAD's history only go on. -/
structure Continues (cap : Nat) (w w' : Repo β) : Prop where
  history : ∀ tip, w.headCommit = some tip → ∃ tip', w'.headCommit = some tip' ∧ tip.Within tip'
  files : ∀ path, Relation.ReflTransGen (FileStep cap path) w.worktree[path]? w'.worktree[path]?

theorem Continues.refl (w : Repo β) : Continues cap w w :=
  ⟨fun tip at_tip => ⟨tip, at_tip, .self tip⟩, fun _ => .refl⟩

theorem Continues.trans {w'' : Repo β} (first : Continues cap w w')
    (second : Continues cap w' w'') : Continues cap w w'' := by
  refine ⟨fun tip at_tip => ?_, fun path => (first.files path).trans (second.files path)⟩
  obtain ⟨tip', at_tip', within⟩ := first.history tip at_tip
  obtain ⟨tip'', at_tip'', within'⟩ := second.history tip' at_tip'
  exact ⟨tip'', at_tip'', within.trans within'⟩

theorem Repo.Same.continues (same : w.Same w') : Continues cap w w' := by
  obtain ⟨_, rfl⟩ := same
  have kept : Continues cap w w := .refl w
  exact ⟨kept.history, kept.files⟩

/-- A commit on top of HEAD whose tree differs by one step at one path. -/
theorem Repo.Advances.continues {tree : Tree β} (advances : w.Advances tree w') (path : Path)
    (step : FileStep cap path w.worktree[path]? tree[path]?)
    (others : ∀ other ≠ path, tree[other]? = w.worktree[other]?) : Continues cap w w' := by
  obtain ⟨commit, rfl, parents, arrives⟩ := advances
  refine ⟨fun tip at_tip => ⟨commit, arrives.headCommit, ?_⟩, fun other => ?_⟩
  · exact .parent (by simp [parents, at_tip]) (.self tip)
  · rw [arrives.worktree]
    by_cases here : other = path
    · subst here
      exact .single step
    · rw [others other here]

omit [RecordJson β] [Serde] in
theorem planner_key {plan : MemStore.PutPlanner} (planner : plan = planPut ∨ plan = planPutRaw)
    {current : Option Record} {record stored : Record} {expected : Option Revision} {nowMs : Int}
    (planned : plan current record expected nowMs cap = .write stored) :
    stored.key = record.key := by
  rcases planner with rfl | rfl
  · obtain ⟨-, ⟨-, -, rfl⟩ | ⟨_, -, -, -, -, rfl⟩ | ⟨_, -, -, -, rfl⟩⟩ := planPut_write planned <;>
      rfl
  · obtain ⟨rfl, -⟩ := planPutRaw_write planned
    rfl

theorem PutEffect.continues {plan : MemStore.PutPlanner}
    (planner : plan = planPut ∨ plan = planPutRaw) {nowMs : Int} {record : Record}
    {expected : Option Revision} {answer : PutResult}
    (effect : PutEffect plan nowMs cap w record expected answer w') : Continues cap w w' := by
  cases effect with
  | refused read planned same => exact same.continues
  | wrote read planned written advances =>
    have own := planner_key planner planned
    refine advances.continues (relPath record.key) ?_ fun other ne => ?_
    · rw [own, Std.ExtTreeMap.getElem?_insert_self]
      exact .put planner read rfl planned written
    · rw [own]
      exact getElem?_insert_other ne _ _

theorem DeleteEffect.continues {nowMs : Int} {key : RecordKey} {expected : Option Revision}
    {author : Option Identity} {answer : DeleteResult}
    (fits : ∀ record, RecordIn w.worktree (relPath key) (some record) →
      relPath record.key = relPath key)
    (effect : DeleteEffect nowMs cap w key expected author answer w') : Continues cap w w' := by
  cases effect with
  | idle read planned same => exact same.continues
  | refused read planned same => exact same.continues
  | wrote read planned written advances =>
    obtain ⟨c, rfl, -, -, rfl⟩ := planDelete_write planned
    have own : relPath c.key = relPath key := fits c read
    refine advances.continues (relPath key) ?_ fun other ne => ?_
    · rw [tombstoneOf_key, own, Std.ExtTreeMap.getElem?_insert_self]
      exact .delete read planned written
    · rw [tombstoneOf_key, own]
      exact getElem?_insert_other ne _ _

theorem PurgeEffect.continues {key : RecordKey} {expected : Revision} {answer : DeleteResult}
    (effect : PurgeEffect w key expected answer w') : Continues cap w w' := by
  cases effect with
  | idle read planned same => exact same.continues
  | refused read planned same => exact same.continues
  | removed read planned advances =>
    refine advances.continues (relPath key) ?_ fun other ne => ?_
    · rw [Std.ExtTreeMap.getElem?_erase_self]
      exact .purge read planned
    · exact getElem?_erase_other ne _

theorem PullEffect.continues (clean : w.Clean) {branch : String} {answer : PullReport}
    (effect : PullEffect cap w branch answer w') : Continues cap w w' := by
  cases effect with
  | upToDate same => exact same.continues
  | @fastForward theirs _ behind arrives =>
    refine ⟨fun tip at_tip => ⟨theirs, arrives.headCommit, behind tip at_tip⟩, fun path => ?_⟩
    rw [arrives.worktree, clean.1, Repo.headTree]
    cases tip : w.headCommit with
    | none => simpa using Relation.ReflTransGen.single (FileStep.first theirs)
    | some ours => exact .single (.fastForward (behind ours tip))
  | @merged ours theirs commit base paths state s _ tip common reconciles tree parents arrives =>
    refine ⟨fun ours' at_tip => ⟨commit, arrives.headCommit, ?_⟩, fun path => ?_⟩
    · cases tip.symm.trans at_tip
      exact .parent (by simp [parents]) (.self ours)
    · have old : w.worktree = ours.tree := by rw [clean.1, Repo.headTree, tip]; rfl
      rw [arrives.worktree, tree, old, reconciles.index]
      exact .single (.merged common (reconciles.decided path))

/-- What an operation that answers leaves is clean. -/
theorem Operation.Effect.clean (clean : w.Clean) {op : Operation} {nowMs : Int}
    {answer : op.Answer} (effect : op.Effect nowMs cap w answer w') : w'.Clean := by
  have advanced : ∀ tree : Tree β, w.Advances tree w' → w'.Clean :=
    fun tree ⟨_, _, _, arrives⟩ => arrives.clean
  cases op with
  | put record expected | putRaw record expected =>
    cases effect with
    | wrote _ _ _ advances => exact advanced _ advances
    | refused _ _ same => exact same.clean clean
  | deleteAs key expected author =>
    cases effect with
    | wrote _ _ _ advances => exact advanced _ advances
    | idle _ _ same | refused _ _ same => exact same.clean clean
  | purge key expected =>
    cases effect with
    | removed _ _ advances => exact advanced _ advances
    | idle _ _ same | refused _ _ same => exact same.clean clean
  | pull remote branch =>
    cases effect with
    | upToDate same => exact same.clean clean
    | fastForward _ arrives | merged _ _ _ _ _ arrives => exact arrives.clean

theorem Operation.Effect.continues (clean : w.Clean) {op : Operation} (fits : op.Fits w)
    {nowMs : Int} {answer : op.Answer} (effect : op.Effect nowMs cap w answer w') :
    Continues cap w w' := by
  cases op with
  | put record expected => exact PutEffect.continues (.inl rfl) effect
  | putRaw record expected => exact PutEffect.continues (.inr rfl) effect
  | deleteAs key expected author => exact DeleteEffect.continues fits effect
  | purge key expected => exact PurgeEffect.continues effect
  | pull remote branch => exact PullEffect.continues clean effect

/-- One operation whose faults strike early: its whole effect or none. -/
theorem attempt_effect (clean : w.Clean) {op : Operation} {nowMs : Int}
    {outcome : Outcome op.Answer}
    (attempt : Attempt (earlyFaults β) w (op.program nowMs cap) w' outcome) :
    (∃ answer, outcome = .returned (.ok answer) ∧ op.Effect nowMs cap w answer w') ∨
      (∀ answer, outcome ≠ .returned (.ok answer)) ∧ w.Same w' := by
  cases attempt with
  | @returned moved result run =>
    have ended := (wp_program clean op nowMs cap).runs run
    cases result with
    | ok answer => exact .inl ⟨answer, rfl, ended⟩
    | error e => exact .inr ⟨by simp, ended⟩
  | crashed run dies =>
    subst dies
    exact .inr ⟨by simp, cut_same run⟩

end Runs

/-! ## A write that fails after the rename -/

section Concrete

attribute [local instance] sampleBlake3 plainSerde recordFiles

/-- A new repository. -/
def newRepo : Repo Record := ⟨∅, ∅, fun _ => none, "main", none⟩

/-- The record it stores. -/
def firstStored : Record := createdRecord (topicAt rustKey 0 "v0") 0 32

/-- Its worktree once the record's file is in place. -/
def renamed : Repo Record :=
  { newRepo with worktree := newRepo.worktree.insert (relPath rustKey) firstStored }

end Concrete

end Gonzalo.Git
