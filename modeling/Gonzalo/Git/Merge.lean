import Gonzalo.Git.Store

/-!
# What the record-by-record merge leaves

`mergeTrees` is the part of `merge_non_ff` that reads three trees and builds the merged
index. Each path is decided by the one delta that names it, so the result is described
path by path: `PathMerged` says which file the merge leaves at a path and what it adds to
the report, and `recordOutcome` is the decision for a record present on both sides.
-/

set_option autoImplicit false

namespace Gonzalo.Git
open Gonzalo.Core Gonzalo.Lib

/-- The contract of an operation alone on its repository, which the lock grants it. -/
abbrev gitContract {β : Type} (faults : Faults β) : Contract (gitInterface β) (Repo β × Bool) :=
  .ofRelation (Served faults)

/-- Nothing moved, and a result has the property. -/
def Quiet {β α : Type} (v : Repo β × Bool) (Q : α → Prop) (v' : Repo β × Bool)
    (result : Except CoreError α) : Prop :=
  v' = v ∧ ∀ value, result = .ok value → Q value

namespace Quiet

variable {β α γ : Type} {faults : Faults β} {v : Repo β × Bool}

theorem done {Q : α → Prop} {value : α} (holds : Q value) :
    Wp (gitContract faults) (Quiet v Q) v (pure value) :=
  ⟨rfl, fun _ same => by cases same; exact holds⟩

theorem fail {Q : α → Prop} {e : CoreError} :
    Wp (gitContract faults) (Quiet v Q) v (.fail e : GitProgram β α) :=
  ⟨rfl, fun _ same => by cases same⟩

/-- Two quiet programs one after the other. -/
theorem bind {P : α → Prop} {Q : γ → Prop} {p : GitProgram β α} {f : α → GitProgram β γ}
    (first : Wp (gitContract faults) (Quiet v P) v p)
    (second : ∀ value, P value → Wp (gitContract faults) (Quiet v Q) v (f value)) :
    Wp (gitContract faults) (Quiet v Q) v (p >>= f) := by
  refine first.bind ?_ ?_
  · rintro _ value ⟨rfl, holds⟩
    exact second value (holds value rfl)
  · rintro _ e ⟨rfl, -⟩
    exact ⟨rfl, fun _ same => by cases same⟩

theorem ofExcept {Q : γ → Prop} {result : Except CoreError α} {f : α → GitProgram β γ}
    (holds : ∀ value, result = .ok value → Wp (gitContract faults) (Quiet v Q) v (f value)) :
    Wp (gitContract faults) (Quiet v Q) v (Program.ofExcept result >>= f) := by
  cases result with
  | ok value => exact holds value rfl
  | error e => exact fail

/-- A step that only looks, with its error in hand. -/
theorem attempt {Q : γ → Prop} {w : Repo β} {moved : Bool} {req : GitReq β}
    {f : Except CoreError req.Found → GitProgram β γ} (still : req.moves = false)
    (looks : ∀ found w', w.Succeeds req found w' → w' = w)
    (found : ∀ found, w.Succeeds req found w →
      Wp (gitContract faults) (Quiet (w, moved) Q) (w, moved) (f (.ok found)))
    (failed : ∀ e, faults.fails req moved →
      Wp (gitContract faults) (Quiet (w, moved) Q) (w, moved) (f (.error e))) :
    Wp (gitContract faults) (Quiet (w, moved) Q) (w, moved) (Git.attempt req >>= f) := by
  refine ⟨trivial, fun answer v' served => ?_⟩
  cases served with
  | ok succeeds =>
    obtain rfl := looks _ _ succeeds
    rw [still, Bool.or_false]
    exact found _ succeeds
  | failed e fails => exact failed e fails
  | torn e tears checkout mixed => cases req <;> simp [Repo.target, GitReq.moves] at checkout still

/-- A step that only looks. -/
theorem step {Q : γ → Prop} {w : Repo β} {moved : Bool} {req : GitReq β}
    {f : req.Found → GitProgram β γ} (still : req.moves = false)
    (looks : ∀ found w', w.Succeeds req found w' → w' = w)
    (found : ∀ found, w.Succeeds req found w →
      Wp (gitContract faults) (Quiet (w, moved) Q) (w, moved) (f found)) :
    Wp (gitContract faults) (Quiet (w, moved) Q) (w, moved) (Git.step req >>= f) := by
  refine ⟨trivial, fun answer v' served => ?_⟩
  cases served with
  | ok succeeds =>
    obtain rfl := looks _ _ succeeds
    rw [still, Bool.or_false]
    exact found _ succeeds
  | failed e fails => exact fail
  | torn e tears checkout mixed => cases req <;> simp [Repo.target, GitReq.moves] at checkout still

end Quiet

/-! ## One record -/

/-- What the merge does with a record that is present on both sides. -/
inductive RecordOutcome where
  | keepLocal
  | takeRemote
  | tombstoneWinner (record : Record)
  | merged (record : Record)
  | conflict
  deriving DecidableEq

/-- Two live records with different bodies, neither of which names the other. -/
def NeedsBase (localRec remoteRec : Record) : Prop :=
  localRec.revision ≠ remoteRec.revision ∧ localRec.revision ∉ remoteRec.ancestors ∧
    remoteRec.revision ∉ localRec.ancestors ∧ localRec.isTombstone = false ∧
    remoteRec.isTombstone = false ∧ localRec.body ≠ remoteRec.body

/-- The decision of `merge_non_ff` for a record present on both sides. -/
def recordOutcome [Blake3] [Serde] (base : Body) (localRec remoteRec : Record) (cap : Nat) :
    RecordOutcome :=
  if localRec.revision = remoteRec.revision then .keepLocal
  else if localRec.revision ∈ remoteRec.ancestors then .takeRemote
  else if remoteRec.revision ∈ localRec.ancestors then .keepLocal
  else if localRec.isTombstone && remoteRec.isTombstone then
    .tombstoneWinner (tombstoneWinner localRec remoteRec cap)
  else if localRec.isTombstone || remoteRec.isTombstone then .conflict
  else if localRec.body ≠ remoteRec.body then
    match merge localRec.kind.mergeClass base localRec.body remoteRec.body with
    | .merged body => .merged (mergedRecord localRec remoteRec body cap)
    | .needsResolution => .conflict
  else .keepLocal

/-- What two parts of a pull have done. -/
def PullReport.append (self more : PullReport) : PullReport where
  fastForwarded := self.fastForwarded || more.fastForwarded
  advanced := self.advanced ++ more.advanced
  merged := self.merged ++ more.merged
  conflicts := self.conflicts ++ more.conflicts

/-- What a merge leaves at one path, and what it reports there. -/
structure PathState (β : Type) where
  file : Option β
  report : PullReport := {}

variable {β : Type} [RecordJson β]

/-- What an outcome leaves of the record of `key`, where `mine` is the local file. -/
def RecordOutcome.Leaves (key : RecordKey) (mine : β) (localRec remoteRec : Record) :
    RecordOutcome → PathState β → Prop
  | .keepLocal, s => s = { file := some mine }
  | .takeRemote, s =>
    ∃ file, encode remoteRec = .ok file ∧ s = { file := some file, report := { advanced := [key] } }
  | .tombstoneWinner record, s | .merged record, s =>
    ∃ file, encode record = .ok file ∧ s = { file := some file, report := { merged := [key] } }
  | .conflict, s =>
    s = { file := some mine, report := { conflicts := [⟨key, localRec, remoteRec⟩] } }

/-- The body the merge takes as the base at a path: that of the record in the base tree,
or an empty one. -/
def BaseBody (base : Option (Tree β)) (path : Path) (body : Body) : Prop :=
  match base.bind fun tree => tree[path]? with
  | none => body = .inline []
  | some file => ∃ record, decode file = .ok record ∧ record.body = body

variable [Blake3] [Serde]

/-- What the merge leaves at a path, given the three trees. -/
inductive PathMerged (base : Option (Tree β)) (localTree remoteTree : Tree β) (cap : Nat)
    (path : Path) : PathState β → Prop
  | untouched (same : (base.bind fun tree => tree[path]?) = remoteTree[path]?) :
      PathMerged base localTree remoteTree cap path { file := localTree[path]? }
  | remoteOnly (changed : (base.bind fun tree => tree[path]?) ≠ remoteTree[path]?)
      (same : (base.bind fun tree => tree[path]?) = localTree[path]?) :
      PathMerged base localTree remoteTree cap path { file := remoteTree[path]? }
  | unnamed (changed : (base.bind fun tree => tree[path]?) ≠ localTree[path]?)
      (unnamed : keyFromPath path = none) :
      PathMerged base localTree remoteTree cap path { file := localTree[path]? }
  | purgedThere (changed : (base.bind fun tree => tree[path]?) ≠ localTree[path]?)
      (gone : remoteTree[path]? = none) :
      PathMerged base localTree remoteTree cap path { file := localTree[path]? }
  | purgedHere {key : RecordKey} {theirs file : β} {r : Record}
      (changed : (base.bind fun tree => tree[path]?) ≠ localTree[path]?)
      (named : keyFromPath path = some key)
      (gone : localTree[path]? = none) (there : remoteTree[path]? = some theirs)
      (read : decode theirs = .ok r) (written : encode r = .ok file) :
      PathMerged base localTree remoteTree cap path { file := some file }
  | records {key : RecordKey} {mine theirs : β} {l r : Record} {body : Body} {s : PathState β}
      (changedHere : (base.bind fun tree => tree[path]?) ≠ some mine)
      (changedThere : (base.bind fun tree => tree[path]?) ≠ some theirs)
      (named : keyFromPath path = some key)
      (here : localTree[path]? = some mine) (there : remoteTree[path]? = some theirs)
      (readHere : decode mine = .ok l) (readThere : decode theirs = .ok r)
      (baseBody : NeedsBase l r → BaseBody base path body)
      (leaves : (recordOutcome body l r cap).Leaves key mine l r s) :
      PathMerged base localTree remoteTree cap path s

/-- The merged index holds at each path what the merge leaves there, and the report is what
it adds at the paths that the remote side changed. -/
structure Reconciles (base : Option (Tree β)) (localTree remoteTree : Tree β) (cap : Nat)
    (paths : List Path) (state : Path → PathState β) (s : MergeState β) : Prop where
  distinct : paths.Nodup
  changed : ∀ path, path ∈ paths ↔ (base.bind fun tree => tree[path]?) ≠ remoteTree[path]?
  decided : ∀ path, PathMerged base localTree remoteTree cap path (state path)
  index : ∀ path, s.index[path]? = (state path).file
  report : s.report = (paths.map fun path => (state path).report).foldl PullReport.append {}

/-! ## The loop -/

section Loop

variable {faults : Faults β} {v : Repo β × Bool}

/-- No path of a tree fails to be looked up, which the store would take for its absence. -/
def Faults.LooksUp (faults : Faults β) : Prop :=
  ∀ tree path moved, ¬ faults.fails (.getPath tree path) moved

omit [RecordJson β] [Blake3] [Serde] in
theorem wp_treeBlob (looksUp : faults.LooksUp) (tree : Tree β) (path : Path) :
    Wp (gitContract faults) (Quiet v fun found => found = tree[path]?) v (treeBlob tree path) := by
  obtain ⟨w, moved⟩ := v
  refine Quiet.attempt rfl (by rintro _ _ ⟨⟩; rfl) ?_ fun e fails => absurd fails (looksUp _ _ _)
  rintro _ ⟨⟩
  cases found : tree[path]? with
  | none => exact Quiet.done rfl
  | some contents =>
    refine Quiet.step rfl (by rintro _ _ ⟨⟩; rfl) fun _ _ => ?_
    exact Quiet.done rfl

omit [Blake3] [Serde] in
/-- The record a tree holds at a path, or none. -/
def RecordIn (tree : Tree β) (path : Path) (found : Option Record) : Prop :=
  match found with
  | none => tree[path]? = none
  | some record => ∃ file, tree[path]? = some file ∧ decode file = .ok record

omit [Blake3] [Serde] in
theorem wp_recordAt (looksUp : faults.LooksUp) (tree : Tree β) (path : Path) :
    Wp (gitContract faults) (Quiet v (RecordIn tree path)) v (recordAt (some tree) path) := by
  refine Quiet.bind (wp_treeBlob looksUp tree path) ?_
  rintro _ rfl
  cases found : tree[path]? with
  | none => exact Quiet.done found
  | some contents => exact Quiet.ofExcept fun record read => Quiet.done ⟨contents, found, read⟩

omit [Blake3] [Serde] in
theorem wp_baseBody (looksUp : faults.LooksUp) (base : Option (Tree β)) (path : Path) :
    Wp (gitContract faults)
      (Quiet v fun found => BaseBody base path ((found.map Record.body).getD (.inline []))) v
      (recordAt base path) := by
  cases base with
  | none => exact Quiet.done rfl
  | some tree =>
    refine (wp_recordAt looksUp tree path).mono ?_
    rintro _ result ⟨rfl, held⟩
    refine ⟨rfl, fun found same => ?_⟩
    have read := held found same
    cases found with
    | none =>
      have absent : tree[path]? = none := read
      simp [BaseBody, absent]
    | some record =>
      obtain ⟨file, stored, decoded⟩ := read
      simpa [BaseBody, stored] using ⟨record, decoded, rfl⟩

omit [Blake3] [Serde] in
theorem wp_stageRecord (s : MergeState β) (path : Path) (record : Record)
    (report : PullReport) :
    Wp (gitContract faults) (Quiet v fun s' => ∃ file, encode record = .ok file ∧
      s' = ⟨s.index.insert path file, report⟩) v (stageRecord s path record report) := by
  obtain ⟨w, moved⟩ := v
  refine Quiet.ofExcept fun file written => ?_
  refine Quiet.step rfl (by rintro _ _ ⟨⟩; rfl) fun _ _ => ?_
  exact Quiet.done ⟨file, written, rfl⟩

/-- `s'` is `s` with one path decided, and its part added to the report. -/
structure MergeState.Edits (s : MergeState β) (path : Path) (state : PathState β)
    (s' : MergeState β) : Prop where
  here : s'.index[path]? = state.file
  others : ∀ other ≠ path, s'.index[other]? = s.index[other]?
  report : s'.report = s.report.append state.report

section Edits

omit [RecordJson β] [Blake3] [Serde]

variable {s : MergeState β} {path other : Path}

@[simp] theorem PullReport.append_nothing (report : PullReport) : report.append {} = report := by
  simp [PullReport.append]

@[simp] theorem PullReport.append_conflicts (report : PullReport) (key : RecordKey) (l r : Record) :
    report.append { conflicts := [⟨key, l, r⟩] } = report.conflict key l r := by
  simp [PullReport.append, PullReport.conflict]

theorem PullReport.append_advanced (report : PullReport) (key : RecordKey) :
    report.append { advanced := [key] } = { report with advanced := report.advanced ++ [key] } := by
  simp [PullReport.append]

theorem PullReport.append_merged (report : PullReport) (key : RecordKey) :
    report.append { merged := [key] } = { report with merged := report.merged ++ [key] } := by
  simp [PullReport.append]

theorem getElem?_insert_other (ne : other ≠ path) (tree : Tree β) (file : β) :
    (tree.insert path file)[other]? = tree[other]? := by
  simp [Std.ExtTreeMap.getElem?_insert, Ne.symm ne]

theorem getElem?_erase_other (ne : other ≠ path) (tree : Tree β) :
    (tree.erase path)[other]? = tree[other]? := by
  simp [Std.ExtTreeMap.getElem?_erase, Ne.symm ne]

/-- A path left alone. -/
theorem edits_keep {mine : Option β} (fresh : s.index[path]? = mine) :
    s.Edits path { file := mine } s :=
  ⟨fresh, fun _ _ => rfl, (PullReport.append_nothing _).symm⟩

theorem edits_conflict {mine : Option β} (fresh : s.index[path]? = mine) (key : RecordKey)
    (l r : Record) : s.Edits path { file := mine, report := { conflicts := [⟨key, l, r⟩] } }
      { s with report := s.report.conflict key l r } :=
  ⟨fresh, fun _ _ => rfl, (PullReport.append_conflicts _ _ _ _).symm⟩

theorem edits_insert (file : β) {part report : PullReport} (added : report = s.report.append part) :
    s.Edits path { file := some file, report := part } ⟨s.index.insert path file, report⟩ :=
  ⟨Std.ExtTreeMap.getElem?_insert_self, fun _ ne => getElem?_insert_other ne _ _, added⟩

theorem edits_erase : s.Edits path { file := none } { s with index := s.index.erase path } :=
  ⟨Std.ExtTreeMap.getElem?_erase_self, fun _ ne => getElem?_erase_other ne _,
    (PullReport.append_nothing _).symm⟩

end Edits

/-- A record present on both sides is left as its outcome says. -/
theorem wp_mergeRecords (looksUp : faults.LooksUp) (base : Option (Tree β)) (cap : Nat)
    {s : MergeState β} {path : Path} {key : RecordKey} {mine : β}
    (fresh : s.index[path]? = some mine) (l r : Record) :
    Wp (gitContract faults) (Quiet v fun s' => ∃ state, s.Edits path state s' ∧
      ∃ body, (NeedsBase l r → BaseBody base path body) ∧
        (recordOutcome body l r cap).Leaves key mine l r state) v
      (mergeRecords base cap s path key l r) := by
  unfold mergeRecords
  by_cases equal : l.revision = r.revision
  · have outcome : recordOutcome (.inline []) l r cap = .keepLocal := by simp [recordOutcome, equal]
    rw [if_pos equal]
    refine Quiet.done ⟨_, edits_keep fresh, .inline [], fun needs => absurd equal needs.1, ?_⟩
    rw [outcome]
    rfl
  by_cases behind : l.revision ∈ r.ancestors
  · have outcome : recordOutcome (.inline []) l r cap = .takeRemote := by
      simp [recordOutcome, equal, behind]
    rw [if_neg equal, if_pos behind]
    refine (wp_stageRecord s path r _).mono ?_
    rintro _ result ⟨rfl, staged⟩
    refine ⟨rfl, fun s' same => ?_⟩
    obtain ⟨file, written, rfl⟩ := staged s' same
    refine ⟨_, edits_insert file (PullReport.append_advanced _ key).symm, .inline [],
      fun needs => absurd behind needs.2.1, ?_⟩
    rw [outcome]
    exact ⟨file, written, rfl⟩
  by_cases ahead : r.revision ∈ l.ancestors
  · have outcome : recordOutcome (.inline []) l r cap = .keepLocal := by
      simp [recordOutcome, equal, behind, ahead]
    rw [if_neg equal, if_neg behind, if_pos ahead]
    refine Quiet.done ⟨_, edits_keep fresh, .inline [], fun needs => absurd ahead needs.2.2.1, ?_⟩
    rw [outcome]
    rfl
  rw [if_neg equal, if_neg behind, if_neg ahead]
  cases deadL : l.isTombstone <;> cases deadR : r.isTombstone
  case true.true =>
    have outcome : recordOutcome (.inline []) l r cap =
        .tombstoneWinner (tombstoneWinner l r cap) := by
      simp [recordOutcome, equal, behind, ahead, deadL, deadR]
    refine (wp_stageRecord s path _ _).mono ?_
    rintro _ result ⟨rfl, staged⟩
    refine ⟨rfl, fun s' same => ?_⟩
    obtain ⟨file, written, rfl⟩ := staged s' same
    refine ⟨_, edits_insert file (PullReport.append_merged _ key).symm, .inline [],
      fun needs => absurd needs.2.2.2.1 (by simp [deadL]), ?_⟩
    rw [outcome]
    exact ⟨file, written, rfl⟩
  case true.false | false.true =>
    have outcome : recordOutcome (.inline []) l r cap = .conflict := by
      simp [recordOutcome, equal, behind, ahead, deadL, deadR]
    refine Quiet.done ⟨_, edits_conflict fresh key l r, .inline [], fun needs => ?_, ?_⟩
    · have := needs.2.2.2
      simp [deadL, deadR] at this
    · rw [outcome]
      rfl
  case false.false =>
    by_cases alike : l.body = r.body
    · have outcome : recordOutcome (.inline []) l r cap = .keepLocal := by
        simp [recordOutcome, equal, behind, ahead, deadL, deadR, alike]
      simp only [Bool.and_self, Bool.or_self, Bool.false_eq_true, if_false, ne_eq, alike,
        not_true_eq_false]
      refine Quiet.done ⟨_, edits_keep fresh, .inline [],
        fun needs => absurd alike needs.2.2.2.2.2, ?_⟩
      rw [outcome]
      rfl
    · simp only [Bool.and_self, Bool.or_self, Bool.false_eq_true, if_false, ne_eq, alike,
        not_false_eq_true, if_true]
      refine Quiet.bind (wp_baseBody looksUp base path) fun found based => ?_
      generalize (found.map Record.body).getD (.inline []) = body at based ⊢
      cases merges : merge l.kind.mergeClass body l.body r.body with
      | merged merged =>
        have outcome : recordOutcome body l r cap = .merged (mergedRecord l r merged cap) := by
          simp [recordOutcome, equal, behind, ahead, deadL, deadR, alike, merges]
        refine (wp_stageRecord s path _ _).mono ?_
        rintro _ result ⟨rfl, staged⟩
        refine ⟨rfl, fun s' same => ?_⟩
        obtain ⟨file, written, rfl⟩ := staged s' same
        refine ⟨_, edits_insert file (PullReport.append_merged _ key).symm, body,
          fun _ => based, ?_⟩
        rw [outcome]
        exact ⟨file, written, rfl⟩
      | needsResolution =>
        have outcome : recordOutcome body l r cap = .conflict := by
          simp [recordOutcome, equal, behind, ahead, deadL, deadR, alike, merges]
        refine Quiet.done ⟨_, edits_conflict fresh key l r, body, fun _ => based, ?_⟩
        rw [outcome]
        rfl

/-- One delta decides its path and no other. -/
theorem wp_mergeDelta (looksUp : faults.LooksUp) {base : Option (Tree β)}
    {localTree remoteTree : Tree β} {localChanged : List Path} {cap : Nat}
    {s : MergeState β} {delta : Delta} (fresh : s.index[delta.path]? = localTree[delta.path]?)
    (changed : (base.bind fun tree => tree[delta.path]?) ≠ remoteTree[delta.path]?)
    (deleted : delta.deleted = (remoteTree[delta.path]?).isNone)
    (listed : delta.path ∈ localChanged ↔
      (base.bind fun tree => tree[delta.path]?) ≠ localTree[delta.path]?) :
    Wp (gitContract faults) (Quiet v fun s' => ∃ state, s.Edits delta.path state s' ∧
      PathMerged base localTree remoteTree cap delta.path state) v
      (mergeDelta base localTree remoteTree localChanged cap s delta) := by
  obtain ⟨path, gone⟩ := delta
  dsimp only at fresh changed deleted listed ⊢
  unfold mergeDelta
  dsimp only
  by_cases here : path ∈ localChanged
  · rw [if_neg (not_not.mpr here)]
    have changedHere := listed.mp here
    cases named : keyFromPath path with
    | none => exact Quiet.done ⟨_, edits_keep fresh, .unnamed changedHere named⟩
    | some key =>
      refine Quiet.bind (wp_recordAt looksUp localTree path) fun localRec readL => ?_
      refine Quiet.bind (wp_recordAt looksUp remoteTree path) fun remoteRec readR => ?_
      rcases localRec with _ | l <;> rcases remoteRec with _ | r
      · exact Quiet.done ⟨_, edits_keep fresh, .purgedThere changedHere readR⟩
      · obtain ⟨theirs, there, decoded⟩ := readR
        refine (wp_stageRecord s path r _).mono ?_
        rintro _ result ⟨rfl, staged⟩
        refine ⟨rfl, fun s' same => ?_⟩
        obtain ⟨file, written, rfl⟩ := staged s' same
        exact ⟨_, edits_insert file (PullReport.append_nothing _).symm,
          .purgedHere changedHere named readL there decoded written⟩
      · exact Quiet.done ⟨_, edits_keep fresh, .purgedThere changedHere readR⟩
      · obtain ⟨mine, stored, decodedL⟩ := readL
        obtain ⟨theirs, there, decodedR⟩ := readR
        rw [stored] at fresh changedHere
        rw [there] at changed
        refine (wp_mergeRecords looksUp base cap fresh l r).mono ?_
        rintro _ result ⟨rfl, merged⟩
        refine ⟨rfl, fun s' same => ?_⟩
        obtain ⟨state, edits, body, based, leaves⟩ := merged s' same
        exact ⟨state, edits,
          .records changedHere changed named stored there decodedL decodedR based leaves⟩
  · rw [if_pos here]
    have same := not_not.mp fun ne => here (listed.mpr ne)
    have taken : PathMerged base localTree remoteTree cap path { file := remoteTree[path]? } :=
      .remoteOnly changed same
    cases removed : remoteTree[path]? with
    | none =>
      rw [removed] at taken
      rw [if_pos (by rw [deleted, removed]; rfl)]
      obtain ⟨w, moved⟩ := v
      refine Quiet.step rfl (by rintro _ _ ⟨⟩; rfl) fun _ _ => Quiet.done ?_
      exact ⟨_, edits_erase, taken⟩
    | some theirs =>
      rw [removed] at taken
      rw [if_neg (by rw [deleted, removed]; simp)]
      refine Quiet.bind (wp_treeBlob looksUp remoteTree path) ?_
      rintro _ rfl
      rw [removed]
      obtain ⟨w, moved⟩ := v
      refine Quiet.step rfl (by rintro _ _ ⟨⟩; rfl) fun _ _ => Quiet.done ?_
      exact ⟨_, edits_insert theirs (PullReport.append_nothing _).symm, taken⟩

/-- Where the loop stands: the paths of `rest` are as in the local tree, the ones of `done`
are decided and in the report, and no other path was changed. -/
structure Underway (base : Option (Tree β)) (localTree remoteTree : Tree β) (cap : Nat)
    (done rest : List Path) (state : Path → PathState β) (s : MergeState β) : Prop where
  distinct : (done ++ rest).Nodup
  decided : ∀ path ∉ rest, PathMerged base localTree remoteTree cap path (state path)
  fresh : ∀ path ∈ rest, (state path).file = localTree[path]?
  index : ∀ path, s.index[path]? = (state path).file
  report : s.report = (done.map fun path => (state path).report).foldl PullReport.append {}

/-- The next path of the loop is decided. -/
theorem Underway.next {base : Option (Tree β)} {localTree remoteTree : Tree β} {cap : Nat}
    {done rest : List Path} {path : Path} {state : Path → PathState β} {s s' : MergeState β}
    (underway : Underway base localTree remoteTree cap done (path :: rest) state s)
    {here : PathState β} (edits : s.Edits path here s')
    (decided : PathMerged base localTree remoteTree cap path here) :
    Underway base localTree remoteTree cap (done ++ [path]) rest
      (Function.update state path here) s' := by
  obtain ⟨distinct, earlier, fresh, index, report⟩ := underway
  have apart : path ∉ done ∧ path ∉ rest := by
    have := List.nodup_append.mp distinct
    constructor
    · intro member
      exact this.2.2 path member path List.mem_cons_self rfl
    · exact (List.nodup_cons.mp this.2.1).1
  have kept : ∀ other ≠ path, Function.update state path here other = state other :=
    fun other ne => Function.update_of_ne ne _ _
  refine ⟨by simpa using distinct, fun other later => ?_, fun other later => ?_,
    fun other => ?_, ?_⟩
  · by_cases now : other = path
    · subst now
      rw [Function.update_self]
      exact decided
    · rw [kept other now]
      exact earlier other fun member => (List.mem_cons.mp member).elim now later
  · rw [kept other fun same => apart.2 (same ▸ later)]
    exact fresh other (List.mem_cons_of_mem _ later)
  · by_cases now : other = path
    · subst now
      rw [Function.update_self]
      exact edits.here
    · rw [kept other now, edits.others other now]
      exact index other
  · have before : (done.map fun other => (Function.update state path here other).report) =
        done.map fun other => (state other).report :=
      List.map_congr_left fun other member => by
        rw [kept other fun same => apart.1 (same ▸ member)]
    rw [edits.report, report, List.map_append, List.foldl_append, before]
    simp

/-- The merge reads only, and decides every path as `PathMerged` says. -/
theorem wp_mergeTrees (looksUp : faults.LooksUp) (base : Option (Tree β))
    (localTree remoteTree : Tree β) (cap : Nat) :
    Wp (gitContract faults)
      (Quiet v fun s => ∃ paths state, Reconciles base localTree remoteTree cap paths state s) v
      (mergeTrees base localTree remoteTree cap) := by
  obtain ⟨w, moved⟩ := v
  refine Quiet.step rfl (by rintro _ _ ⟨⟩; rfl) fun (localDeltas : List Delta) listedHere => ?_
  refine Quiet.step rfl (by rintro _ _ ⟨⟩; rfl) fun (remoteDeltas : List Delta) listed => ?_
  have localLists : Repo.Deltas base localTree localDeltas := by
    cases listedHere
    assumption
  have remoteLists : Repo.Deltas base remoteTree remoteDeltas := by
    cases listed
    assumption
  obtain ⟨distinct, remotePaths, deleted⟩ := remoteLists
  refine Wp.foldlM (fun rest v' s => v' = (w, moved) ∧ (∀ delta ∈ rest, delta ∈ remoteDeltas) ∧
    ∃ done state, done ++ rest.map Delta.path = remoteDeltas.map Delta.path ∧
      Underway base localTree remoteTree cap done (rest.map Delta.path) state s)
    ?_ ?_ ⟨rfl, fun _ member => member, [], fun path => { file := localTree[path]? }, rfl, ?_⟩
  · rintro delta rest _ s ⟨rfl, listed, done, state, whole, underway⟩
    have member := listed delta List.mem_cons_self
    have changed := (remotePaths delta.path).mp (List.mem_map_of_mem member)
    have fresh : s.index[delta.path]? = localTree[delta.path]? :=
      (underway.index _).trans (underway.fresh _ List.mem_cons_self)
    refine (wp_mergeDelta looksUp fresh changed (deleted delta member)
      (localLists.2.1 delta.path)).mono ?_
    rintro _ result ⟨rfl, decided⟩
    cases result with
    | error e => exact ⟨rfl, fun _ same => by cases same⟩
    | ok s' =>
      obtain ⟨here, edits, merged⟩ := decided s' rfl
      refine ⟨rfl, fun d m => listed d (List.mem_cons_of_mem _ m), done ++ [delta.path], _, ?_,
        underway.next edits merged⟩
      rw [List.append_assoc]
      exact whole
  · rintro _ s ⟨rfl, -, done, state, whole, underway⟩
    rw [List.map_nil, List.append_nil] at whole
    subst whole
    refine ⟨rfl, fun _ same => ?_⟩
    cases same
    exact ⟨_, state, distinct, remotePaths, fun path => underway.decided path List.not_mem_nil,
      underway.index, underway.report⟩
  · refine ⟨distinct, fun path none => ?_, fun _ _ => rfl, fun _ => rfl, rfl⟩
    exact .untouched (not_not.mp fun changed => none ((remotePaths path).mpr changed))

end Loop

end Gonzalo.Git
