import Gonzalo.Core.ManifestJson
import Gonzalo.Fs.Listing

/-!
# What holds along a run

A run is a sequence of puts and puts of blobs from an empty store. As long as no step does
what the layout cannot hold apart, a put changes no other record, a listing answers exactly
the stored records and every blob that was reported stored is read back.
-/

set_option autoImplicit false

namespace Gonzalo.Fs
open Gonzalo.Core Gonzalo.Lib

variable [RecordJson Bytes] [Blake3]

/-- A call with its arguments and its result. -/
inductive FsEvent where
  | put (record : Record) (expected : Option Revision) (plan : MemStore.PutPlanner) (nowMs : Int)
      (cap : Nat) (result : Except CoreError PutResult)
  | putBlob (content : Bytes) (pid nonce : Nat) (result : Except CoreError ContentHash)

/-- One call on its own. -/
inductive FsStep (t : FileTree Bytes) : FsEvent → FileTree Bytes → Prop
  | put {record : Record} {expected : Option Revision} {plan : MemStore.PutPlanner} {nowMs : Int}
      {cap : Nat} {t' : FileTree Bytes} {result : Except CoreError PutResult}
      (run : PutRuns t record expected plan nowMs cap t' result) :
      FsStep t (.put record expected plan nowMs cap result) t'
  | putBlob {content : Bytes} {pid nonce : Nat} {t' : FileTree Bytes}
      {result : Except CoreError ContentHash} (run : BlobRuns t content pid nonce t' result) :
      FsStep t (.putBlob content pid nonce result) t'

/-- The condition on a step: a record is only written for a nested key, and a blob is put
where no directory is. -/
def Meets (t : FileTree Bytes) : FsEvent → Prop
  | .put record expected plan nowMs cap _ => PutMeets t record expected plan nowMs cap
  | .putBlob content _ _ _ => t (blobPath (ContentHash.of content)) ≠ some .dir

/-- An empty store, with or without its root. -/
def freshTree (root : Bool) : FileTree Bytes := fun path =>
  if root = true ∧ path = [] then some .dir else none

/-- A run whose steps meet the condition. -/
inductive FsRun : List FsEvent → FileTree Bytes → Prop
  | start (root : Bool) : FsRun [] (freshTree root)
  | step {log : List FsEvent} {t t' : FileTree Bytes} {event : FsEvent} (run : FsRun log t)
      (meets : Meets t event) (step : FsStep t event t') : FsRun (log ++ [event]) t'

/-- The contents that a run put as blobs. -/
def contentsOf (log : List FsEvent) : Set Bytes :=
  {content | ∃ pid nonce result, .putBlob content pid nonce result ∈ log}

/-- No two of the contents have one hash. -/
def CollisionFree (log : List FsEvent) : Prop :=
  ∀ a ∈ contentsOf log, ∀ b ∈ contentsOf log, ContentHash.of a = ContentHash.of b → a = b

theorem tidy_fresh (root : Bool) : Tidy ∅ (freshTree root) where
  closed := by
    intro path name there
    simp [freshTree] at there
  finite := by
    refine (Set.finite_singleton []).subset fun path there => ?_
    by_contra other
    exact there (if_neg fun both => other both.2)
  dirs := by
    intro path dir
    unfold freshTree at dir
    split at dir
    next both =>
      rw [both.2]
      exact ⟨by simp, by simp⟩
    next => cases dir
  files := by
    intro path bytes file
    unfold freshTree at file
    split at file
    next => cases file
    next => cases file

theorem FsRun.tidy (roundTrip : RoundTrip Bytes) (hex : ∀ bytes, (ContentHash.of bytes).Hex)
    {log : List FsEvent} {t : FileTree Bytes} (run : FsRun log t) : Tidy (contentsOf log) t := by
  induction run with
  | start root => exact (tidy_fresh root).more (Set.empty_subset _)
  | @step log t t' event run meets step ih =>
    have grown : contentsOf log ⊆ contentsOf (log ++ [event]) := by
      rintro content ⟨pid, nonce, result, mem⟩
      exact ⟨pid, nonce, result, List.mem_append_left _ mem⟩
    cases step with
    | put run => exact (ih.put roundTrip meets run).more grown
    | @putBlob content pid nonce _ result run =>
      refine (ih.putBlob hex run).more (Set.insert_subset ?_ grown)
      exact ⟨pid, nonce, result, List.mem_append_right _ (List.mem_singleton_self _)⟩

/-- Along a run every blob that was reported stored is at its path. -/
theorem FsRun.blobs (roundTrip : RoundTrip Bytes) (hex : ∀ bytes, (ContentHash.of bytes).Hex)
    {log : List FsEvent} {t : FileTree Bytes} (run : FsRun log t) (free : CollisionFree log)
    {content : Bytes} {pid nonce : Nat} {hash : ContentHash}
    (put : .putBlob content pid nonce (.ok hash) ∈ log) :
    hash = ContentHash.of content ∧ BlobAt t content := by
  induction run with
  | start => cases put
  | @step log t t' event run meets step ih =>
    have grown : contentsOf log ⊆ contentsOf (log ++ [event]) := by
      rintro content ⟨pid, nonce, result, mem⟩
      exact ⟨pid, nonce, result, List.mem_append_left _ mem⟩
    rcases List.mem_append.mp put with old | new
    · obtain ⟨named, stored⟩ := ih (fun a inA b inB => free a (grown inA) b (grown inB)) old
      cases step with
      | put run => exact ⟨named, stored.put hex run⟩
      | putBlob run => exact ⟨named, stored.putBlob hex run⟩
    · cases List.mem_singleton.mp new
      cases step with
      | putBlob run' =>
        refine blobAt_putBlob hex (run.tidy roundTrip hex) (fun bytes known same => ?_) meets run'
        exact free bytes (grown known) content ⟨pid, nonce, _, put⟩ same

/-! ### Calls on a fresh store -/

omit [RecordJson Bytes] [Blake3] in
theorem made_fresh (path place : Path) : (freshTree false).makeDirs path place =
    if place <+: path then some .dir else none := by
  simp [FileTree.makeDirs, freshTree, List.isPrefixOf_iff_prefix]

omit [RecordJson Bytes] [Blake3] in
theorem blocked_made (path : Path) {place : Path} :
    ((freshTree false).makeDirs path).blocked place = false := by
  rw [FileTree.blocked, List.any_eq_false]
  intro front _
  simp only [FileTree.isFile, made_fresh]
  split
  next contents file => split at file <;> cases file
  next => simp

omit [RecordJson Bytes] [Blake3] in
/-- The lock of a record on a fresh store. -/
theorem lockRecord_runs (key : RecordKey) :
    ∃ t, Program.Runs MayServe (freshTree false) (lockRecord (recordPath key)) t (.ok ()) ∧
      t (recordDirs key) = some .dir ∧ t (tmpPath (recordPath key)) ≠ some .dir ∧
      t.contents (recordPath key) = .error .notFound ∧ t (recordPath key) = none := by
  let t₁ : FileTree Bytes := (freshTree false).makeDirs (recordDirs key)
  let lock := lockPath (recordPath key)
  let t₂ : FileTree Bytes := Function.update t₁ lock (some (.file ∅))
  have lockScratch : Scratch lock := lockPath_scratch key
  have free : ∀ place, Scratch place ∨ place = recordPath key → t₁ place = none := fun place kind =>
    (made_fresh _ _).trans (if_neg (not_above kind))
  have dir₁ : t₁ (recordDirs key) = some .dir := (made_fresh _ _).trans (if_pos List.prefix_rfl)
  have dir₂ : t₂ (recordDirs key) = some .dir :=
    (Function.update_of_ne (dirs_ne (.inl lockScratch)) _ _).trans dir₁
  have opened : Serves t₁ (.openFile lock) (.ok ()) t₂ := by
    have lockFree := free lock (.inl lockScratch)
    have admits : t₁.Admits lock := admits_in lockScratch.ne_nil
      ((dropLast_withExtension _).trans (dropLast_recordPath key)) dir₁ (by rw [lockFree]; nofun)
    have served := Serves.opened admits
    rwa [if_pos lockFree] at served
  have absent : t₂ (recordPath key) = none :=
    (Function.update_of_ne (recordPath_ne_scratch key lockScratch) _ _).trans (free _ (.inr rfl))
  have within : FileTree.Within [] {lock} t₁ t₂ :=
    t₁.within_update [] (Set.mem_singleton lock) (by simp)
  refine ⟨t₂, ?_, dir₂, ?_, ?_, absent⟩
  · have made : Serves (freshTree false) (.createDirAll (recordPath key).dropLast) (.ok ()) t₁ := by
      rw [dropLast_recordPath]
      exact .madeDirs (by simp [FileTree.blocked, FileTree.isFile, freshTree]) rfl
    exact (send_runs made).bind (send_runs opened)
  · intro dir
    rcases within.dirs _ dir with old | part
    · rw [free _ (.inl (tmpPath_scratch key))] at old
      cases old
    · exact (tmpPath_scratch key).ne_nil (List.prefix_nil.mp part)
  · have free₂ : t₂.blocked (recordPath key) = false := by
      rw [blocked_put within fun front part same => not_above (.inl (same ▸ lockScratch)) part]
      exact blocked_made (recordDirs key)
    simp [FileTree.contents, FileTree.resolve, free₂, absent]

omit [Blake3] in
/-- A durable write in a directory that is there. -/
theorem writeDurable_runs {t : FileTree Bytes} {key : RecordKey} {record : Record} {bytes : Bytes}
    (encoded : encode record = .ok bytes) (dir : t (recordDirs key) = some .dir)
    (tmpFree : t (tmpPath (recordPath key)) ≠ some .dir) (pathFree : t (recordPath key) ≠ some .dir) :
    ∃ t', Program.Runs MayServe t (writeDurable (recordPath key) record) t' (.ok ()) ∧
      t' (recordDirs key) = some .dir ∧ t' (recordPath key) = some (.file bytes) := by
  let tmp := tmpPath (recordPath key)
  let t₁ : FileTree Bytes := Function.update t tmp (some (.file bytes))
  let t₂ : FileTree Bytes := Function.update t₁ (recordPath key) (some (.file bytes))
  have tmpScratch : Scratch tmp := tmpPath_scratch key
  have apart : recordPath key ≠ tmp := recordPath_ne_scratch key tmpScratch
  have dir₁ : t₁ (recordDirs key) = some .dir :=
    (Function.update_of_ne (dirs_ne (.inl tmpScratch)) _ _).trans dir
  have dir₂ : t₂ (recordDirs key) = some .dir :=
    (Function.update_of_ne (dirs_ne (.inr rfl)) _ _).trans dir₁
  have admitsTmp : t.Admits tmp := admits_in tmpScratch.ne_nil
    ((dropLast_withExtension _).trans (dropLast_recordPath key)) dir tmpFree
  have admitsPath : t₁.Admits (recordPath key) :=
    admits_in (recordPath_ne_nil key) (dropLast_recordPath key) dir₁
      (by rw [show t₁ _ = _ from Function.update_of_ne apart _ _]; exact pathFree)
  refine ⟨Function.update t₂ tmp none, ?_, ?_, ?_⟩
  · unfold writeDurable
    rw [encoded]
    refine (send_runs (.written bytes admitsTmp)).bind ?_
    refine (send_runs (.renamed (Function.update_self _ _ _) admitsPath apart.symm)).bind ?_
    exact send_runs (.synced _)
  · exact (Function.update_of_ne (dirs_ne (.inl tmpScratch)) _ _).trans dir₂
  · exact (Function.update_of_ne apart _ _).trans (Function.update_self _ _ _)

omit [Blake3] in
/-- A put on a fresh store commits when nothing fails. -/
theorem fresh_put {record stored : Record} {expected : Option Revision}
    {plan : MemStore.PutPlanner} {nowMs : Int} {cap : Nat} {bytes : Bytes}
    (planned : plan none record expected nowMs cap = .write stored)
    (encoded : encode stored = .ok bytes) :
    ∃ t', PutRuns (freshTree false) record expected plan nowMs cap t'
        (.ok (.committed stored.revision)) ∧
      t' (recordDirs record.key) = some .dir ∧
      t' (recordPath record.key) = some (.file bytes) := by
  obtain ⟨t₁, locked, dir₁, tmpFree, absent, pathFree⟩ := lockRecord_runs record.key
  obtain ⟨t₂, wrote, dir₂, file⟩ :=
    writeDurable_runs encoded dir₁ tmpFree (by rw [pathFree]; nofun)
  have read : Program.Runs MayServe t₁ (readCurrent (recordPath record.key)) t₁ (.ok none) := by
    have served := Serves.read (t := t₁) (recordPath record.key)
    rw [absent] at served
    exact .ask (.inl served) (.done t₁ none)
  refine ⟨t₂, ?_, dir₂, file⟩
  refine locked.bind (read.bind ?_)
  rw [planned]
  exact wrote.bind (.done t₂ _)

omit [RecordJson Bytes] in
/-- Where nothing lies below `blobs`, a put of a blob stores it when nothing fails. -/
theorem putBlob_runs {t : FileTree Bytes} (root : t.isFile [] = false)
    (free : ∀ place, blobsDir <+: place → t place = none) (content : Bytes)
    (hex : (ContentHash.of content).Hex) (pid nonce : Nat) :
    ∃ t', BlobRuns t content pid nonce t' (.ok (ContentHash.of content)) := by
  let path := blobPath (ContentHash.of content)
  let tmp := blobTmpPath path pid nonce
  let t₁ : FileTree Bytes := t.makeDirs blobsDir
  let t₂ : FileTree Bytes := Function.update t₁ tmp (some (.file content))
  have pathParent : path.dropLast = blobsDir := dropLast_blobPath hex
  have tmpScratch : Scratch tmp := blobTmpPath_scratch hex pid nonce
  have tmpParent : tmp.dropLast = blobsDir := (dropLast_withExtension _).trans pathParent
  have apart : tmp ≠ path := by
    intro same
    rw [same] at tmpScratch
    exact blobPath_not_scratch hex tmpScratch
  have pathNil : path ≠ [] := by
    rw [show path = _ from blobPath_eq hex]
    exact List.cons_ne_nil _ _
  have below : ∀ place : Path, place.dropLast = blobsDir → blobsDir <+: place := by
    intro place parent
    exact parent ▸ List.dropLast_prefix place
  have absent : t blobsDir = none := free blobsDir List.prefix_rfl
  -- The directory that is made is not one of the places below it.
  have free₁ : ∀ place, place ≠ [] → place.dropLast = blobsDir → t₁ place = none := by
    intro place nonempty parent
    have above : ¬ place <+: blobsDir := by
      intro part
      have short := part.length_le
      rw [← parent, List.length_dropLast] at short
      have long := List.length_pos_of_ne_nil nonempty
      omega
    simp [t₁, FileTree.makeDirs, List.isPrefixOf_iff_prefix, above, free place (below place parent)]
  have dir₁ : t₁ blobsDir = some .dir := by
    simp [t₁, FileTree.makeDirs, List.isPrefixOf_iff_prefix, absent]
  have dirApart : blobsDir ≠ tmp := by
    intro same
    have empty := free₁ tmp tmpScratch.ne_nil tmpParent
    rw [← same, dir₁] at empty
    cases empty
  have dir₂ : t₂ blobsDir = some .dir := (Function.update_of_ne dirApart _ _).trans dir₁
  have admitsTmp : t₁.Admits tmp := admits_in tmpScratch.ne_nil tmpParent dir₁
    (by rw [free₁ tmp tmpScratch.ne_nil tmpParent]; nofun)
  have admitsPath : t₂.Admits path := admits_in pathNil pathParent dir₂
    (by rw [show t₂ path = _ from Function.update_of_ne apart.symm _ _,
      free₁ path pathNil pathParent]; nofun)
  have blobsFile : t.isFile ["blobs"] = false := by
    change t.isFile blobsDir = false
    simp only [FileTree.isFile, absent]
  have asked : Serves t (.tryExists path) (.ok false) t := by
    have unblocked : t.blocked path = false := by
      rw [show path = _ from blobPath_eq hex]
      simp [FileTree.blocked, root, blobsFile]
    have missing : t.present path = .ok false := by
      simp only [FileTree.present, FileTree.resolve, unblocked,
        free path (below path pathParent), Bool.false_eq_true, if_false]
    exact missing ▸ Serves.exists path
  have made : Serves t (.createDirAll path.dropLast) (.ok ()) t₁ := by
    rw [pathParent]
    refine .madeDirs ?_ blobsFile
    simp [FileTree.blocked, blobsDir, Path.join, root]
  refine ⟨Function.update (Function.update t₂ path (some (.file content))) tmp none, ?_⟩
  unfold BlobRuns putBlob
  refine (send_runs asked).bind ?_
  refine (send_runs made).bind ?_
  refine (send_runs (.written content admitsTmp)).bind ?_
  refine (send_runs (.renamed (Function.update_self _ _ _) admitsPath apart)).bind ?_
  exact (send_runs (.synced _)).bind (.done _ _)

/-! ### What the reads answer -/

omit [Blake3] in
theorem get_runs_iff {t t' : FileTree Bytes} {key : RecordKey}
    {result : Except CoreError (Option Record)} :
    Program.Runs Serves t (get key) t' result ↔ t' = t ∧
      result = (readAt t (recordPath key)).map (Option.filter fun record => !record.isTombstone) := by
  unfold get getRaw readCurrent readAt
  refine FileTree.runs_read_iff.trans ?_
  cases read : t.contents (recordPath key) with
  | ok bytes =>
    change Program.Runs (I := fsInterface Bytes) Serves t
      (Program.ofExcept ((decode bytes).map some) >>= _) t' result ↔
        t' = t ∧ result = ((decode bytes).map some).map _
    cases (decode bytes : Except CoreError Record).map some with
    | ok found => exact Program.Runs.done_iff
    | error e => exact Program.Runs.fail_iff
  | error e =>
    cases e with
    | notFound => exact Program.Runs.done_iff
    | other text => exact Program.Runs.fail_iff

/-- Records share a path only when an empty name is dropped from one of them, and a record
needs the place of a blob only below `blobs`. Along a run that writes no record for such a
key and puts no blob where a directory is, a put changes what is read of no other record, a
listing answers exactly the stored records and every blob that was reported stored is read
back. -/
theorem files_stay_apart (roundTrip : RoundTrip Bytes)
    (hex : ∀ bytes, (ContentHash.of bytes).Hex) :
    (∀ key key', recordPath key = recordPath key' ↔ key = key' ∨ key.id = key'.id ∧
      (key.ns = "" ∧ key'.collection = "" ∧ key.collection = key'.ns ∨
        key.collection = "" ∧ key'.ns = "" ∧ key.ns = key'.collection)) ∧
    (∀ key hash, hash.Hex → recordPath key ≠ blobPath hash ∧
      (blobPath hash <+: recordDirs key ↔ key.ns = "blobs" ∧ key.collection = hash.text)) ∧
    ∀ log t, FsRun log t → CollisionFree log →
      (∀ record expected plan nowMs cap t' result, PutMeets t record expected plan nowMs cap →
        PutRuns t record expected plan nowMs cap t' result → ∀ key, key ≠ record.key → ∀ answer,
          (Program.Runs Serves t' (get key) t' answer ↔ Program.Runs Serves t (get key) t answer)) ∧
      (∃ keys, Program.Runs Serves t (listRaw .all) t (.ok keys)) ∧
      (∀ t' answer, Program.Runs Serves t (listRaw .all) t' answer →
        ∃ keys, answer = .ok keys ∧ keys.Nodup ∧ ∀ key, key ∈ keys ↔
          ∃ record, Program.Runs Serves t (getRaw key) t (.ok (some record))) ∧
      ∀ content pid nonce hash, .putBlob content pid nonce (.ok hash) ∈ log →
        hash = ContentHash.of content ∧ ∀ t' answer,
          (Program.Runs Serves t (getBlob hash) t' answer ↔ t' = t ∧ answer = .ok (some content)) := by
  refine ⟨recordPath_eq_iff, fun key hash isHex => ⟨recordPath_ne_blobPath key isHex,
    dirs_reach_blobPath_iff key isHex⟩, fun log t run free => ?_⟩
  have tidy := run.tidy roundTrip hex
  have listed : ∀ t' answer, Program.Runs Serves t (listRaw .all) t' answer →
      Collects t [] (Asked t .all) t' answer := fun t' answer walked =>
    (listRaw_wp hex tidy .all).runs walked
  refine ⟨?_, ?_, ?_, ?_⟩
  · intro record expected plan nowMs cap t' result meets put key other answer
    rw [get_runs_iff, get_runs_iff, readAt_put meets put other]
    simp only [true_and]
  · obtain ⟨t', answer, walked⟩ := FileTree.runs_exist (listRaw .all) tidy.finite
    obtain ⟨rfl, keys, rfl, -⟩ := listed t' answer walked
    exact ⟨_, walked⟩
  · intro t' answer walked
    obtain ⟨rfl, keys, rfl, nodup, mem⟩ := listed t' answer walked
    refine ⟨keys, rfl, nodup, fun key => (mem key).trans ?_⟩
    rw [Asked, and_iff_left (KeyPrefix.all_matches key), ← tidy.readAt_eq hex]
    refine exists_congr fun record => ?_
    rw [getRaw_runs_iff, and_iff_right rfl, eq_comm]
  · intro content pid nonce hash put
    obtain ⟨rfl, stored⟩ := run.blobs roundTrip hex free put
    exact ⟨rfl, fun t' answer => getBlob_runs_iff tidy.closed stored⟩

end Gonzalo.Fs

namespace Gonzalo.Fs
open Gonzalo.Core Gonzalo.Lib

/-! ### Concrete runs -/

/-- The digests of `digests`, and a text of 64 digits for every other content. -/
def hexHashHex (bytes : Bytes) : String :=
  match digests.find? fun d => asBytes d.1 = bytes with
  | some d => d.2
  | none => "0000000000000000000000000000000000000000000000000000000000000000"

abbrev hexBlake3 : Blake3 := ⟨hexHashHex⟩

attribute [local instance] hexBlake3

theorem hex_of (bytes : Bytes) : (ContentHash.of bytes).Hex := by
  have listed : ∀ d ∈ digests, d.2.length = 64 ∧ d.2.toList.all isHexDigit = true := by decide
  change (hexHashHex bytes).length = 64 ∧ (hexHashHex bytes).toList.all isHexDigit = true
  unfold hexHashHex
  split
  next d found => exact listed d (List.mem_of_find?_eq_some found)
  next => decide

/-- A record without a namespace, and one below the blobs where the blob `v0` may lie. -/
def rootless : Record := topicAt ⟨"", "topics", "rust"⟩ 0 "v0"

def belowBlobs : Record := topicAt ⟨"blobs", (ContentHash.of (asBytes "v0")).text, "rust"⟩ 0 "v0"

/-- A topic is put and a blob beside it: the run meets the condition, the listing has the
topic and the blob is read back. -/
theorem files_stay_apart_topic : ∃ _ : RecordJson Bytes, ∃ result t keys,
    FsRun [.put (topicAt rustKey 0 "v0") none planPut 0 32 result,
      .putBlob (asBytes "v0") 1 0 (.ok (ContentHash.of (asBytes "v0")))] t ∧
      Program.Runs Serves t (listRaw .all) t (.ok keys) ∧ rustKey ∈ keys ∧
      ∀ t' answer, (Program.Runs Serves t (getBlob (ContentHash.of (asBytes "v0"))) t' answer ↔
        t' = t ∧ answer = .ok (some (asBytes "v0"))) := by
  obtain ⟨json, roundTrip, writes⟩ := exists_recordFiles
  obtain ⟨bytes, encoded⟩ := writes (topicAt rustKey 0 "v0")
  obtain ⟨t₁, put, dir, file⟩ :=
    @fresh_put json (topicAt rustKey 0 "v0") (topicAt rustKey 0 "v0") none planPut 0 32 bytes rfl
      encoded
  obtain ⟨-, within, closes⟩ :=
    (putLocked_wp _ (topicAt rustKey 0 "v0") none planPut 0 32).files put
  have closed : t₁.Closed := closes (tidy_fresh false).closed
  have there : t₁ ([] ++ recordDirs rustKey) = some .dir := dir
  have filed : t₁ (recordPath rustKey) = some (.file bytes) := file
  have root : t₁.isFile [] = false := by
    have above : t₁ [] = some .dir :=
      closed.ancestors (show recordDirs rustKey ≠ [] by decide)
        (by rw [there]; exact Option.some_ne_none _)
    simp only [FileTree.isFile, above]
  have free : ∀ place, blobsDir <+: place → t₁ place = none := by
    intro place under
    have outside : place ∉ ({lockPath (recordPath rustKey), tmpPath (recordPath rustKey),
        recordPath rustKey} : Set Path) := by
      rintro (rfl | rfl | rfl)
      · exact absurd under (by decide)
      · exact absurd under (by decide)
      · exact absurd under (by decide)
    rcases within.outside place outside with same | ⟨part, -⟩
    · rw [same]
      simp [freshTree]
    · exact absurd (under.trans part) (by decide)
  obtain ⟨t, blob⟩ := putBlob_runs root free (asBytes "v0") (hex_of _) 1 0
  obtain ⟨-, within', closes'⟩ := (putBlob_wp t₁ (asBytes "v0") (hex_of _) 1 0).files blob
  have kept : t (recordPath rustKey) = some (.file bytes) := by
    refine (within'.keeps ?_ (by rw [filed]; exact Option.some_ne_none _)).trans filed
    rintro (tmp | path)
    · exact recordPath_ne_scratch rustKey (blobTmpPath_scratch (hex_of _) 1 0) tmp
    · exact recordPath_ne_blobPath rustKey (hex_of _) path
  have first : FsRun [.put (topicAt rustKey 0 "v0") none planPut 0 32 _] t₁ :=
    (FsRun.start false).step (fun _ _ => ⟨by decide, by decide⟩) (.put put)
  have meets : Meets t₁ (.putBlob (asBytes "v0") 1 0 (.ok (ContentHash.of (asBytes "v0")))) := by
    have below : blobsDir <+: blobPath (ContentHash.of (asBytes "v0")) := by
      rw [blobPath_eq (hex_of _)]
      exact ⟨[_], rfl⟩
    rw [Meets, free _ below]
    simp
  have run := first.step meets (.putBlob blob)
  have apart : CollisionFree ([.put (topicAt rustKey 0 "v0") none planPut 0 32
      (.ok (.committed (topicAt rustKey 0 "v0").revision))] ++
        [.putBlob (asBytes "v0") 1 0 (.ok (ContentHash.of (asBytes "v0")))]) := by
    rintro a ⟨_, _, _, inA⟩ b ⟨_, _, _, inB⟩ -
    simp only [List.mem_append, List.mem_cons, List.not_mem_nil, or_false, reduceCtorEq, false_or,
      FsEvent.putBlob.injEq] at inA inB
    rw [inA.1, inB.1]
  obtain ⟨-, ⟨keys, listed⟩, lists, blobs⟩ :=
    (files_stay_apart roundTrip hex_of).2.2 _ t run apart
  obtain ⟨_, same, -, mem⟩ := lists t (.ok keys) listed
  cases same
  refine ⟨json, _, t, keys, run, listed, (mem rustKey).mpr ?_, (blobs _ 1 0 _ ?_).2⟩
  · refine ⟨topicAt rustKey 0 "v0", getRaw_runs_iff.mpr ⟨rfl, ?_⟩⟩
    simp only [readAt, FileTree.contents, (closes' closed).resolve_eq kept, roundTrip _ _ encoded,
      Except.map]
  · exact List.mem_cons_of_mem _ (List.mem_singleton_self _)

/-- A record without a namespace is read at the key without a collection, and a blob put
below which a record lies is reported stored and cannot be read. -/
theorem shared_path_and_lost_blob : ∃ _ : RecordJson Bytes, RoundTrip Bytes ∧
    (∃ t revision, PutRuns (freshTree false) rootless none planPut 0 32 t (.ok (.committed revision)) ∧
      Program.Runs Serves (freshTree false) (get ⟨"topics", "", "rust"⟩) (freshTree false) (.ok none) ∧
      Program.Runs Serves t (get ⟨"topics", "", "rust"⟩) t (.ok (some rootless))) ∧
    ∃ t t' revision hash,
      PutRuns (freshTree false) belowBlobs none planPut 0 32 t (.ok (.committed revision)) ∧
      BlobRuns t (asBytes "v0") 1 0 t' (.ok hash) ∧
      ∀ t'' answer, Program.Runs Serves t' (getBlob hash) t'' answer → ∃ e, answer = .error e := by
  obtain ⟨json, roundTrip, writes⟩ := exists_recordFiles
  refine ⟨json, roundTrip, ?_, ?_⟩
  · obtain ⟨bytes, encoded⟩ := writes rootless
    obtain ⟨t, put, -, file⟩ :=
      @fresh_put json rootless rootless none planPut 0 32 bytes rfl encoded
    have shared : recordPath ⟨"topics", "", "rust"⟩ = recordPath rootless.key :=
      (recordPath_eq_iff _ _).mpr (.inr ⟨rfl, .inr ⟨rfl, rfl, rfl⟩⟩)
    have closed : t.Closed :=
      ((putLocked_wp _ rootless none planPut 0 32).files put).2.2 (tidy_fresh false).closed
    have before : readAt (freshTree false) (recordPath ⟨"topics", "", "rust"⟩) = .ok none := by
      simp [readAt, FileTree.contents, FileTree.resolve, FileTree.blocked, FileTree.isFile, freshTree]
    have after : readAt t (recordPath ⟨"topics", "", "rust"⟩) = .ok (some rootless) := by
      rw [shared]
      simp only [readAt, FileTree.contents, closed.resolve_eq file, roundTrip _ _ encoded, Except.map]
    refine ⟨t, _, put, get_runs_iff.mpr ⟨rfl, ?_⟩, get_runs_iff.mpr ⟨rfl, ?_⟩⟩
    · rw [before]
      rfl
    · rw [after]
      rfl
  · obtain ⟨bytes, encoded⟩ := writes belowBlobs
    obtain ⟨t, put, dir, -⟩ :=
      @fresh_put json belowBlobs belowBlobs none planPut 0 32 bytes rfl encoded
    have closed : t.Closed :=
      ((putLocked_wp _ belowBlobs none planPut 0 32).files put).2.2 (tidy_fresh false).closed
    have there : t (blobPath (ContentHash.of (asBytes "v0"))) = some .dir := by
      have isHex := hex_of (asBytes "v0")
      have part := (dirs_reach_blobPath_iff belowBlobs.key isHex).mpr ⟨rfl, rfl⟩
      have whole := part.eq_of_length_le (by
        rw [blobPath_eq isHex]
        exact length_recordDirs _)
      rw [whole, dir]
    have asked : Serves t (.tryExists (blobPath (ContentHash.of (asBytes "v0")))) (.ok true) t := by
      have present : t.present (blobPath (ContentHash.of (asBytes "v0"))) = .ok true := by
        simp only [FileTree.present, closed.resolve_eq there]
      exact present ▸ Serves.exists _
    refine ⟨t, t, _, _, put, (send_runs asked).bind (.done t _), fun t'' answer read => ?_⟩
    have contents : t.contents (blobPath (ContentHash.of (asBytes "v0"))) =
        .error (.other "Is a directory") := by
      simp only [FileTree.contents, closed.resolve_eq there]
    have failed := FileTree.runs_read_iff.mp read
    rw [contents] at failed
    exact ⟨_, (Program.Runs.fail_iff.mp failed).2⟩

end Gonzalo.Fs
