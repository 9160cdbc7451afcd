import Gonzalo.Fs.Specs

/-!
# Runs of the file-system store

Puts and puts of blobs, one after another, on a file system that may fail any request. As
long as no record is written for a key that is not nested and no blob is put where a
directory is, every file is a record at its own path, a blob at its own path or a scratch
file, and the reads answer from that.
-/

set_option autoImplicit false

namespace Gonzalo.Fs
open Gonzalo.Core Gonzalo.Lib

variable [RecordJson Bytes] [Blake3]

/-! ### The tree -/

/-- A tree of records, blobs put so far and scratch files. -/
structure Tidy (contents : Set Bytes) (t : FileTree Bytes) : Prop where
  closed : t.Closed
  finite : {place | t place ≠ none}.Finite
  dirs : ∀ path, t path = some .dir → path.length ≤ 2 ∧ ∀ name ∈ path, '.' ∉ name.toList
  files : ∀ path bytes, t path = some (.file bytes) → Scratch path ∨
    (∃ key, Nested key ∧ path = recordPath key ∧ ∃ record, decode bytes = .ok record) ∨
      (bytes ∈ contents ∧ path = blobPath (ContentHash.of bytes))

theorem Tidy.more {contents contents' : Set Bytes} {t : FileTree Bytes} (tidy : Tidy contents t)
    (grown : contents ⊆ contents') : Tidy contents' t where
  closed := tidy.closed
  finite := tidy.finite
  dirs := tidy.dirs
  files := by
    intro path bytes file
    rcases tidy.files path bytes file with scratch | record | ⟨known, at_blob⟩
    · exact .inl scratch
    · exact .inr (.inl record)
    · exact .inr (.inr ⟨grown known, at_blob⟩)

/-- What may be written where a run touches the tree. -/
theorem Tidy.within {contents : Set Bytes} {t t' : FileTree Bytes} {under : Path}
    {files : Set Path} (tidy : Tidy contents t) (within : FileTree.Within under files t t')
    (few : files.Finite) (closed : t'.Closed)
    (shallow : under.length ≤ 2 ∧ ∀ name ∈ under, '.' ∉ name.toList)
    (listed : ∀ path ∈ files, ∀ bytes, t' path = some (.file bytes) → Scratch path ∨
      (∃ key, Nested key ∧ path = recordPath key ∧ ∃ record, decode bytes = .ok record) ∨
        (bytes ∈ contents ∧ path = blobPath (ContentHash.of bytes))) : Tidy contents t' where
  closed := closed
  finite := within.finite few tidy.finite
  dirs := by
    intro path dir
    rcases within.dirs path dir with old | part
    · exact tidy.dirs path old
    · exact ⟨part.length_le.trans shallow.1, fun name mem => shallow.2 name (part.subset mem)⟩
  files := by
    intro path bytes file
    by_cases mem : path ∈ files
    · exact listed path mem bytes file
    · rcases within.outside path mem with same | ⟨-, -, made⟩
      · exact tidy.files path bytes (same ▸ file)
      · rw [made] at file
        cases file

/-- Only a record lies at the path of a record. -/
theorem Tidy.nested {contents : Set Bytes} (hex : ∀ bytes, (ContentHash.of bytes).Hex)
    {t : FileTree Bytes} (tidy : Tidy contents t) {key : RecordKey} {node : Node Bytes}
    (there : t (recordPath key) = some node) :
    Nested key ∧ ∃ bytes record, node = .file bytes ∧ decode bytes = .ok record := by
  cases node with
  | dir =>
    have dot : '.' ∈ (recordFile key).toList := by simp [recordFile, String.toList_append]
    have plain := (tidy.dirs _ there).2 (recordFile key) (by simp [recordPath_eq])
    exact absurd dot plain
  | file bytes =>
    rcases tidy.files _ _ there with scratch | ⟨own, nested, same, record, decoded⟩ | ⟨-, same⟩
    · exact absurd scratch (recordPath_not_scratch key)
    · obtain rfl := recordPath_injective nested same.symm
      exact ⟨nested, bytes, record, rfl, decoded⟩
    · exact absurd same (recordPath_ne_blobPath key (hex bytes))

/-! ### Reading -/

/-- What a read of a record answers. -/
def readAt (t : FileTree Bytes) (path : Path) : Except CoreError (Option Record) :=
  match t.contents path with
  | .ok bytes => (decode bytes).map some
  | .error .notFound => .ok none
  | .error e => .error (backendError e)

omit [Blake3] in
theorem getRaw_runs_iff {t t' : FileTree Bytes} {key : RecordKey}
    {result : Except CoreError (Option Record)} :
    Program.Runs Serves t (getRaw key) t' result ↔ t' = t ∧ result = readAt t (recordPath key) := by
  unfold getRaw readCurrent readAt
  refine FileTree.runs_read_iff.trans ?_
  cases read : t.contents (recordPath key) with
  | ok bytes =>
    exact Program.Runs.ofExcept_iff
  | error e =>
    cases e with
    | notFound => exact Program.Runs.done_iff
    | other text => exact Program.Runs.fail_iff


/-- In a tidy tree a record is found where one lies and nowhere else. -/
theorem Tidy.readAt_eq {contents : Set Bytes} (hex : ∀ bytes, (ContentHash.of bytes).Hex)
    {t : FileTree Bytes} (tidy : Tidy contents t) (key : RecordKey) :
    (∃ record, readAt t (recordPath key) = .ok (some record)) ↔ t (recordPath key) ≠ none := by
  constructor
  · rintro ⟨record, read⟩ absent
    unfold readAt at read
    split at read
    next bytes found =>
      rw [FileTree.contents_eq_ok found] at absent
      cases absent
    next => cases read
    next => cases read
  · intro there
    obtain ⟨node, found⟩ := Option.ne_none_iff_exists'.mp there
    obtain ⟨-, bytes, record, rfl, decoded⟩ := tidy.nested hex found
    refine ⟨record, ?_⟩
    have read : t.contents (recordPath key) = .ok bytes := by
      simp only [FileTree.contents, tidy.closed.resolve_eq found]
    simp only [readAt, read, decoded, Except.map]

/-! ### Puts -/

/-- The condition on a put: a record is only written for a nested key. -/
def PutMeets (t : FileTree Bytes) (record : Record) (expected : Option Revision)
    (plan : MemStore.PutPlanner) (nowMs : Int) (cap : Nat) : Prop :=
  ∀ stored, plan (recordAt t (recordPath record.key)) record expected nowMs cap = .write stored →
    Nested record.key

/-- One put on its own. -/
abbrev PutRuns (t : FileTree Bytes) (record : Record) (expected : Option Revision)
    (plan : MemStore.PutPlanner) (nowMs : Int) (cap : Nat) (t' : FileTree Bytes)
    (result : Except CoreError PutResult) : Prop :=
  Program.Runs MayServe t (putLocked record expected plan nowMs cap) t' result

/-- A put keeps the tree tidy. -/
theorem Tidy.put {contents : Set Bytes} (roundTrip : RoundTrip Bytes) {t t' : FileTree Bytes}
    (tidy : Tidy contents t) {record : Record} {expected : Option Revision}
    {plan : MemStore.PutPlanner} {nowMs : Int} {cap : Nat} {result : Except CoreError PutResult}
    (meets : PutMeets t record expected plan nowMs cap)
    (run : PutRuns t record expected plan nowMs cap t' result) : Tidy contents t' := by
  obtain ⟨ends, within, closed⟩ := (putLocked_wp t record expected plan nowMs cap).files run
  refine tidy.within within (Set.toFinite _) (closed tidy.closed)
    ⟨length_recordDirs _, dot_notMem_recordDirs _⟩ ?_
  rintro path (rfl | rfl | rfl) bytes file
  · exact .inl (lockPath_scratch record.key)
  · exact .inl (tmpPath_scratch record.key)
  · rcases ends with ⟨same, -⟩ | ⟨stored, written, planned, encoded, there⟩
    · exact tidy.files _ _ (same ▸ file)
    · rw [there] at file
      cases file
      exact .inr (.inl ⟨record.key, meets stored planned, rfl, stored, roundTrip _ _ encoded⟩)

omit [Blake3] in
/-- A put leaves what a read of any other record answers. -/
theorem readAt_put {t t' : FileTree Bytes} {record : Record} {expected : Option Revision}
    {plan : MemStore.PutPlanner} {nowMs : Int} {cap : Nat} {result : Except CoreError PutResult}
    (meets : PutMeets t record expected plan nowMs cap)
    (run : PutRuns t record expected plan nowMs cap t' result) {key : RecordKey}
    (other : key ≠ record.key) : readAt t' (recordPath key) = readAt t (recordPath key) := by
  obtain ⟨ends, within, -⟩ := (putLocked_wp t record expected plan nowMs cap).files run
  have unlisted : recordPath key ≠ lockPath (recordPath record.key) ∧
      recordPath key ≠ tmpPath (recordPath record.key) :=
    ⟨recordPath_ne_scratch key (lockPath_scratch _), recordPath_ne_scratch key (tmpPath_scratch _)⟩
  have there : t' (recordPath key) = t (recordPath key) := by
    by_cases shared : recordPath key = recordPath record.key
    · rcases ends with ⟨same, -⟩ | ⟨stored, -, planned, -⟩
      · rw [shared, same]
      · exact absurd (recordPath_injective (meets stored planned) shared.symm).symm other
    · refine within.same ?_ (recordPath_not_above _ _)
      rintro (lock | tmp | path)
      · exact unlisted.1 lock
      · exact unlisted.2 tmp
      · exact shared path
  unfold readAt FileTree.contents FileTree.resolve
  rw [blocked_put within fun _ => dirs_not_file, there]

/-! ### Puts of blobs -/

/-- One put of a blob on its own. -/
abbrev BlobRuns (t : FileTree Bytes) (content : Bytes) (pid nonce : Nat) (t' : FileTree Bytes)
    (result : Except CoreError ContentHash) : Prop :=
  Program.Runs MayServe t (putBlob content pid nonce) t' result

/-- The blob lies at its path. -/
def BlobAt (t : FileTree Bytes) (content : Bytes) : Prop :=
  t (blobPath (ContentHash.of content)) = some (.file content)

theorem Tidy.putBlob {contents : Set Bytes} (hex : ∀ bytes, (ContentHash.of bytes).Hex)
    {t t' : FileTree Bytes} (tidy : Tidy contents t) {content : Bytes} {pid nonce : Nat}
    {result : Except CoreError ContentHash} (run : BlobRuns t content pid nonce t' result) :
    Tidy (insert content contents) t' := by
  obtain ⟨⟨ends, -⟩, within, closed⟩ := (putBlob_wp t content (hex content) pid nonce).files run
  have more := tidy.more (Set.subset_insert content contents)
  refine more.within within (Set.toFinite _) (closed tidy.closed) blobsDir_shallow ?_
  rintro path (rfl | rfl) bytes file
  · exact .inl (blobTmpPath_scratch (hex content) pid nonce)
  · rcases ends with same | ⟨-, there⟩
    · exact more.files _ _ (same ▸ file)
    · rw [there] at file
      cases file
      exact .inr (.inr ⟨Set.mem_insert _ _, rfl⟩)

/-- What is at the path of a blob is that blob or a directory. -/
theorem Tidy.blobAt {contents : Set Bytes} (hex : ∀ bytes, (ContentHash.of bytes).Hex)
    {t : FileTree Bytes} (tidy : Tidy contents t) {content : Bytes}
    (free : ∀ bytes ∈ contents, ContentHash.of bytes = ContentHash.of content → bytes = content)
    {node : Node Bytes} (there : t (blobPath (ContentHash.of content)) = some node) :
    node = .dir ∨ node = .file content := by
  cases node with
  | dir => exact .inl rfl
  | file bytes =>
    rcases tidy.files _ _ there with scratch | ⟨key, -, same, -⟩ | ⟨known, same⟩
    · exact absurd scratch (blobPath_not_scratch (hex content))
    · exact absurd same.symm (recordPath_ne_blobPath key (hex content))
    · have hashes := blobPath_injective (hex bytes) (hex content) same.symm
      rw [free bytes known hashes]
      exact .inr rfl

/-- A put of a blob that is answered `Ok` leaves the blob at its path, unless a directory is
there. -/
theorem blobAt_putBlob {contents : Set Bytes} (hex : ∀ bytes, (ContentHash.of bytes).Hex)
    {t t' : FileTree Bytes} (tidy : Tidy contents t) {content : Bytes}
    (free : ∀ bytes ∈ contents, ContentHash.of bytes = ContentHash.of content → bytes = content)
    (meets : t (blobPath (ContentHash.of content)) ≠ some .dir) {pid nonce : Nat}
    {hash : ContentHash} (run : BlobRuns t content pid nonce t' (.ok hash)) :
    hash = ContentHash.of content ∧ BlobAt t' content := by
  obtain ⟨⟨ends, stored⟩, -, -⟩ := (putBlob_wp t content (hex content) pid nonce).files run
  obtain ⟨named, there⟩ := stored hash rfl
  refine ⟨named, ?_⟩
  rcases ends with same | ⟨-, published⟩
  · obtain ⟨node, found⟩ := Option.ne_none_iff_exists'.mp there
    have before := same.symm.trans found
    rcases tidy.blobAt hex free before with rfl | rfl
    · exact absurd before meets
    · exact found
  · exact published

/-- A put keeps every blob. -/
theorem BlobAt.put (hex : ∀ bytes, (ContentHash.of bytes).Hex) {t t' : FileTree Bytes}
    {content : Bytes} (stored : BlobAt t content) {record : Record} {expected : Option Revision}
    {plan : MemStore.PutPlanner} {nowMs : Int} {cap : Nat} {result : Except CoreError PutResult}
    (run : PutRuns t record expected plan nowMs cap t' result) : BlobAt t' content := by
  obtain ⟨-, within, -⟩ := (putLocked_wp t record expected plan nowMs cap).files run
  refine (within.keeps ?_ (by rw [stored]; exact Option.some_ne_none _)).trans stored
  rintro (lock | tmp | path)
  · exact blobPath_not_scratch (hex content) (lock ▸ lockPath_scratch record.key)
  · exact blobPath_not_scratch (hex content) (tmp ▸ tmpPath_scratch record.key)
  · exact recordPath_ne_blobPath record.key (hex content) path.symm

omit [RecordJson Bytes] in
/-- A put of a blob keeps every blob. -/
theorem BlobAt.putBlob (hex : ∀ bytes, (ContentHash.of bytes).Hex) {t t' : FileTree Bytes}
    {content : Bytes} (stored : BlobAt t content) {content' : Bytes} {pid nonce : Nat}
    {result : Except CoreError ContentHash} (run : BlobRuns t content' pid nonce t' result) :
    BlobAt t' content := by
  obtain ⟨⟨ends, -⟩, within, -⟩ := (putBlob_wp t content' (hex content') pid nonce).files run
  have there : t (blobPath (ContentHash.of content)) ≠ none := by
    rw [stored]
    exact Option.some_ne_none _
  by_cases shared : blobPath (ContentHash.of content) = blobPath (ContentHash.of content')
  · unfold BlobAt
    rcases ends with same | ⟨absent, -⟩
    · rw [shared, same, ← shared, stored]
    · exact absurd absent (shared ▸ there)
  · refine (within.keeps ?_ there).trans stored
    rintro (tmp | path)
    · exact blobPath_not_scratch (hex content) (tmp ▸ blobTmpPath_scratch (hex content') pid nonce)
    · exact shared path

omit [RecordJson Bytes] in
/-- A blob at its path is what `get_blob` answers. -/
theorem getBlob_runs_iff {t t' : FileTree Bytes} (closed : t.Closed) {content : Bytes}
    (stored : BlobAt t content) {result : Except CoreError (Option Bytes)} :
    Program.Runs Serves t (getBlob (ContentHash.of content)) t' result ↔
      t' = t ∧ result = .ok (some content) := by
  have read : t.contents (blobPath (ContentHash.of content)) = .ok content := by
    simp only [FileTree.contents, closed.resolve_eq stored]
  unfold getBlob
  refine FileTree.runs_read_iff.trans ?_
  rw [read]
  exact Program.Runs.done_iff

end Gonzalo.Fs
