import Gonzalo.Fs.Store

/-!
# What the calls of the file-system store do

One specification for each call, over a file system that may fail any request. A put
touches the directories above its record, its lock and its temporary file, and leaves at
the record's path either what was there or the record that the plan writes.
-/

set_option autoImplicit false

namespace Gonzalo.Fs
open Gonzalo.Core Gonzalo.Lib

/-- A file beside a record or a blob: its name has a dot and does not end as a record's. -/
def Scratch (path : Path) : Prop :=
  ∃ front name, path = front ++ [name] ∧ '.' ∈ name.toList ∧ stripSuffix name ".json" = none

theorem Scratch.ne_nil {path : Path} (scratch : Scratch path) : path ≠ [] := by
  obtain ⟨front, name, rfl, -⟩ := scratch
  exact List.append_ne_nil_of_right_ne_nil _ (List.cons_ne_nil _ _)

theorem scratch_withExtension {path : Path} (nonempty : path ≠ []) {ext : String}
    (text : ext.toList ≠ []) (ending : ext.toList.getLast? ≠ some 'n') :
    Scratch (path.withExtension ext) := by
  unfold Path.withExtension
  cases last : path.getLast? with
  | none => exact absurd (List.getLast?_eq_none_iff.mp last) nonempty
  | some name =>
    refine ⟨_, _, rfl, ?_, stripSuffix_of_last text ?_ (by decide)⟩
    · simp [String.toList_append]
    · exact ending

theorem recordPath_ne_nil (key : RecordKey) : recordPath key ≠ [] := by
  rw [recordPath_eq]
  exact List.append_ne_nil_of_right_ne_nil _ (List.cons_ne_nil _ _)

theorem stripSuffix_recordFile (key : RecordKey) :
    stripSuffix (recordFile key) ".json" = some (segment key.id) :=
  stripSuffix_eq_some.mpr rfl

theorem recordPath_not_scratch (key : RecordKey) : ¬ Scratch (recordPath key) := by
  rintro ⟨front, name, same, -, other⟩
  rw [recordPath_eq] at same
  obtain ⟨-, names⟩ := List.append_inj' same rfl
  rw [← List.singleton_inj.mp names, stripSuffix_recordFile] at other
  cases other

theorem blobPath_not_scratch {hash : ContentHash} (hex : hash.Hex) : ¬ Scratch (blobPath hash) := by
  rintro ⟨front, name, same, dot, -⟩
  rw [blobPath_eq hex] at same
  obtain ⟨-, names⟩ := List.append_inj' (show ["blobs"] ++ [hash.text] = _ from same) rfl
  rw [← List.singleton_inj.mp names] at dot
  exact hex.notMem (by decide) dot

theorem lockPath_scratch (key : RecordKey) : Scratch (lockPath (recordPath key)) :=
  scratch_withExtension (recordPath_ne_nil key) (by decide) (by decide)

theorem tmpPath_scratch (key : RecordKey) : Scratch (tmpPath (recordPath key)) :=
  scratch_withExtension (recordPath_ne_nil key) (by decide) (by decide)

theorem toString_digits (n : Nat) : (toString n).toList = Nat.toDigits 10 n :=
  String.toList_ofList

theorem blobTmpPath_scratch {hash : ContentHash} (hex : hash.Hex) (pid nonce : Nat) :
    Scratch (blobTmpPath (blobPath hash) pid nonce) := by
  have digits : (toString nonce).toList ≠ [] := by
    rw [toString_digits]
    exact Nat.toDigits_ne_nil
  apply scratch_withExtension
  · rw [blobPath_eq hex]
    exact List.cons_ne_nil _ _
  · rw [String.toList_append]
    exact List.append_ne_nil_of_right_ne_nil _ digits
  · rw [String.toList_append, List.getLast?_append_of_ne_nil _ digits]
    intro last
    have mem := List.mem_of_getLast? last
    rw [toString_digits] at mem
    exact absurd (Nat.isDigit_of_mem_toDigits (by decide) (by decide) mem) (by decide)

/-! ### Calls -/

/-- The contract of a put. -/
abbrev putContract (key : RecordKey) : Contract (fsInterface Bytes) (FileTree Bytes) :=
  fsContract (recordDirs key)
    {lockPath (recordPath key), tmpPath (recordPath key), recordPath key}

theorem send_wp {α : Type} {C : Contract (fsInterface Bytes) (FileTree Bytes)} {t : FileTree Bytes}
    {req : FsReq Bytes} {f : req.Answer → FsProgram α} {post : FileTree Bytes → Except CoreError α → Prop}
    (allowed : C.guard t req)
    (ok : ∀ value t', C.turn t req (.ok value) t' → Wp C post t' (f value))
    (error : ∀ e t', C.turn t req (.error e) t' → post t' (.error (backendError e))) :
    Wp C post t (send req >>= f) := by
  apply Wp.assoc
  refine Wp.request_bind_iff.mpr ⟨allowed, fun answer t' turned => ?_⟩
  cases answer with
  | ok value => exact ok value t' turned
  | error e => exact error e t' turned

theorem recordPath_not_above (key key' : RecordKey) : ¬ recordPath key <+: recordDirs key' := by
  intro part
  have mem : recordFile key ∈ recordDirs key' := by
    apply part.subset
    rw [recordPath_eq]
    exact List.mem_append_right _ (List.mem_singleton_self _)
  have dot : '.' ∈ (recordFile key).toList := by simp [recordFile, String.toList_append]
  exact dot_notMem_recordDirs key' _ mem dot

theorem recordPath_ne_scratch (key : RecordKey) {path : Path} (scratch : Scratch path) :
    recordPath key ≠ path := by
  rintro rfl
  exact recordPath_not_scratch key scratch

theorem dropLast_recordPath (key : RecordKey) : (recordPath key).dropLast = recordDirs key := by
  rw [recordPath_eq, List.dropLast_concat]

/-- A request of a put before its rename leaves the record as it is. -/
theorem still {key : RecordKey} {t t' : FileTree Bytes} {req : FsReq Bytes}
    {answer : Except IoError req.Answer} (served : MayServe t req answer t')
    (allowed : req.Within (recordDirs key) {lockPath (recordPath key), tmpPath (recordPath key)}) :
    t' (recordPath key) = t (recordPath key) := by
  refine (served.within allowed).same ?_ (recordPath_not_above _ _)
  rintro (lock | tmp)
  · exact recordPath_ne_scratch key (lockPath_scratch key) lock
  · exact recordPath_ne_scratch key (tmpPath_scratch key) tmp

theorem dropLast_blobPath {hash : ContentHash} (hex : hash.Hex) :
    (blobPath hash).dropLast = blobsDir := by
  rw [blobPath_eq hex]
  rfl

/-- A place above a record is no file of a put. -/
theorem dirs_not_file {key key' : RecordKey} {front : Path} (part : front <+: recordDirs key) :
    front ∉ ({lockPath (recordPath key'), tmpPath (recordPath key'), recordPath key'} : Set Path) := by
  have plain : ¬ ∃ rest name, front = rest ++ [name] ∧ '.' ∈ name.toList := by
    rintro ⟨rest, name, rfl, dot⟩
    exact dot_notMem_recordDirs key name (part.subset (by simp)) dot
  rintro (rfl | rfl | rfl)
  · obtain ⟨rest, name, same, dot, -⟩ := lockPath_scratch key'
    exact plain ⟨rest, name, same, dot⟩
  · obtain ⟨rest, name, same, dot, -⟩ := tmpPath_scratch key'
    exact plain ⟨rest, name, same, dot⟩
  · exact plain ⟨_, _, recordPath_eq key', by simp [recordFile, String.toList_append]⟩

/-- A put blocks no way to a record and frees none. -/
theorem blocked_put {t t' : FileTree Bytes} {key : RecordKey} {files : Set Path} {under : Path}
    (within : FileTree.Within under files t t')
    (apart : ∀ front, front <+: recordDirs key → front ∉ files) :
    t'.blocked (recordPath key) = t.blocked (recordPath key) := by
  unfold FileTree.blocked
  rw [Bool.eq_iff_iff, List.any_eq_true, List.any_eq_true]
  refine exists_congr fun front => and_congr_right fun mem => ?_
  by_cases whole : front = recordPath key
  · simp [whole]
  · have part : front <+: recordDirs key := by
      have some := (List.mem_inits _ _).mp mem
      rw [recordPath_eq] at some whole
      exact (List.prefix_concat_iff.mp some).resolve_left whole
    rcases within.outside front (apart front part) with same | ⟨-, absent, made⟩
    · simp [FileTree.isFile, same]
    · simp [FileTree.isFile, absent, made]

theorem blobsDir_shallow : blobsDir.length ≤ 2 ∧ ∀ name ∈ blobsDir, '.' ∉ name.toList := by
  decide

/-! ### Runs in which nothing fails -/

/-- A request that succeeds when nothing fails. -/
theorem send_runs {t t' : FileTree Bytes} {req : FsReq Bytes} {value : req.Answer}
    (served : Serves t req (.ok value) t') : Program.Runs MayServe t (send req) t' (.ok value) :=
  .ask (.inl served) (.done t' value)

theorem dropLast_withExtension {path : Path} (ext : String) :
    (path.withExtension ext).dropLast = path.dropLast := by
  unfold Path.withExtension
  cases last : path.getLast? with
  | none => rfl
  | some name => exact List.dropLast_concat

/-- A file may be put beside files in a directory that is there. -/
theorem admits_in {t : FileTree Bytes} {dirs path : Path} (nonempty : path ≠ [])
    (parent : path.dropLast = dirs) (dir : t dirs = some .dir) (free : t path ≠ some .dir) :
    t.Admits path :=
  ⟨nonempty, parent ▸ dir, free⟩

/-- A place that is not above the record. -/
theorem not_above {key : RecordKey} {place : Path} (kind : Scratch place ∨ place = recordPath key) :
    ¬ place <+: recordDirs key := by
  rintro part
  rcases kind with ⟨front, name, rfl, dot, -⟩ | rfl
  · exact dot_notMem_recordDirs key name (part.subset (by simp)) dot
  · exact recordPath_not_above key key part

theorem dirs_ne {key : RecordKey} {place : Path} (kind : Scratch place ∨ place = recordPath key) :
    recordDirs key ≠ place := by
  rintro rfl
  exact not_above kind List.prefix_rfl

/-! ### Records -/

variable [RecordJson Bytes]

/-- The record at a path, if a record can be read there. -/
def recordAt (t : FileTree Bytes) (path : Path) : Option Record :=
  match t path with
  | some (.file bytes) => (decode bytes).toOption
  | _ => none

/-- A put leaves at its path what was there or the record its plan writes. -/
def PutEnds (t : FileTree Bytes) (record : Record) (expected : Option Revision)
    (plan : MemStore.PutPlanner) (nowMs : Int) (cap : Nat) (t' : FileTree Bytes)
    (result : Except CoreError PutResult) : Prop :=
  (t' (recordPath record.key) = t (recordPath record.key) ∧
      ∀ revision, result ≠ .ok (.committed revision)) ∨
    ∃ stored bytes, plan (recordAt t (recordPath record.key)) record expected nowMs cap = .write stored ∧
      encode stored = .ok bytes ∧ t' (recordPath record.key) = some (.file bytes)

/-- What is read is the record at the path, and nothing moved. -/
theorem readCurrent_wp {C : Contract (fsInterface Bytes) (FileTree Bytes)} {α : Type} {path : Path}
    {f : Option Record → FsProgram α} {post : FileTree Bytes → Except CoreError α → Prop}
    {t : FileTree Bytes} (allowed : C.guard t (.read path))
    (served : ∀ answer t', C.turn t (.read path) answer t' → MayServe t (.read path) answer t')
    (read : Wp C post t (f (recordAt t path))) (error : ∀ e, post t (.error e)) :
    Wp C post t (readCurrent path >>= f) := by
  apply Wp.assoc
  refine Wp.request_bind_iff.mpr ⟨allowed, fun answer t' turned => ?_⟩
  obtain ⟨rfl, answered⟩ : t' = t ∧
      (answer = t.contents path ∨ ∃ text, answer = .error (.other text)) := by
    rcases served answer t' turned with done | fault
    · cases done
      exact ⟨rfl, .inl rfl⟩
    · cases fault
      exact ⟨rfl, .inr ⟨_, rfl⟩⟩
  cases answer with
  | ok bytes =>
    have there : t' path = some (.file bytes) := by
      rcases answered with same | ⟨_, impossible⟩
      · exact FileTree.contents_eq_ok same.symm
      · cases impossible
    have value : recordAt t' path = (decode bytes).toOption := by simp only [recordAt, there]
    rw [value] at read
    cases decoded : (decode bytes : Except CoreError Record) with
    | ok record =>
      rw [decoded] at read
      simp only [decoded]
      exact read
    | error e =>
      simp only [decoded]
      exact error e
  | error e =>
    cases e with
    | other text => exact error _
    | notFound =>
      have absent : t' path = none := by
        rcases answered with same | ⟨_, impossible⟩
        · exact FileTree.contents_eq_notFound same.symm
        · cases impossible
      have value : recordAt t' path = none := by simp only [recordAt, absent]
      rwa [value] at read

/-- A durable write leaves at the path what was there or the record. -/
theorem writeDurable_wp (t : FileTree Bytes) (key : RecordKey) (record : Record) :
    Wp (putContract key)
      (fun t' result => (t' (recordPath key) = t (recordPath key) ∧ result ≠ .ok ()) ∨
        ∃ bytes, encode record = .ok bytes ∧ t' (recordPath key) = some (.file bytes))
      t (writeDurable (recordPath key) record) := by
  unfold writeDurable
  refine Wp.ofExcept_bind_iff.mpr ?_
  cases encoded : (encode record : Except CoreError Bytes) with
  | error e => exact .inl ⟨rfl, nofun⟩
  | ok bytes =>
    refine send_wp (.inr (.inl rfl)) (fun _ t₁ wrote => ?_) (fun e t₁ failed => ?_)
    · have same : t₁ (recordPath key) = t (recordPath key) := still wrote (.inr rfl)
      have there : t₁ (tmpPath (recordPath key)) = some (.file bytes) := wrote.written
      refine send_wp ⟨.inr (.inl rfl), .inr (.inr rfl)⟩ (fun _ t₂ renamed => ?_)
        (fun e t₂ failed => ?_)
      · have published : t₂ (recordPath key) = some (.file bytes) := renamed.renamed there
        refine Wp.request_bind_iff.mpr ⟨trivial, fun answer t₃ synced => ?_⟩
        have unmoved : t₃ = t₂ := synced.unmoved (by trivial)
        cases answer with
        | ok value => exact .inr ⟨bytes, rfl, unmoved ▸ published⟩
        | error e => exact .inr ⟨bytes, rfl, unmoved ▸ published⟩
      · have unmoved : t₂ = t₁ := failed.unmoved_of_error
        exact .inl ⟨unmoved ▸ same, nofun⟩
    · exact .inl ⟨still failed (.inr rfl), nofun⟩

theorem putLocked_wp (t : FileTree Bytes) (record : Record) (expected : Option Revision)
    (plan : MemStore.PutPlanner) (nowMs : Int) (cap : Nat) :
    Wp (putContract record.key) (PutEnds t record expected plan nowMs cap) t
      (putLocked record expected plan nowMs cap) := by
  -- A failure before the rename leaves the record as it was.
  have kept : ∀ (t' : FileTree Bytes) (e : CoreError),
      t' (recordPath record.key) = t (recordPath record.key) →
        PutEnds t record expected plan nowMs cap t' (.error e) :=
    fun t' e same => .inl ⟨same, fun _ => nofun⟩
  unfold putLocked lockRecord
  apply Wp.assoc
  refine send_wp (dropLast_recordPath _) (fun _ t₁ made => ?_) (fun e t₁ failed => ?_)
  · have same₁ : t₁ (recordPath record.key) = t (recordPath record.key) :=
      still made (dropLast_recordPath _)
    refine send_wp (.inl rfl) (fun _ t₂ opened => ?_) (fun e t₂ failed => ?_)
    · have same₂ : t₂ (recordPath record.key) = t (recordPath record.key) :=
        (still opened (.inl rfl)).trans same₁
      refine readCurrent_wp trivial (fun _ _ => id) ?_ (fun e => kept _ _ same₂)
      have read : recordAt t₂ (recordPath record.key) = recordAt t (recordPath record.key) := by
        simp only [recordAt, same₂]
      rw [read]
      split
      next stored planned =>
        refine (writeDurable_wp t₂ record.key stored).bind (fun t₃ _ ended => ?_)
          (fun t₃ e ended => ?_)
        · rcases ended with ⟨-, failed⟩ | ⟨bytes, encoded, there⟩
          · exact absurd rfl failed
          · exact .inr ⟨stored, bytes, planned, encoded, there⟩
        · rcases ended with ⟨same₃, -⟩ | ⟨bytes, encoded, there⟩
          · exact kept _ _ (same₃.trans same₂)
          · exact .inr ⟨stored, bytes, planned, encoded, there⟩
      next conflict => exact .inl ⟨same₂, fun _ => nofun⟩
      next => exact kept _ _ same₂
      next => exact kept _ _ same₂
    · exact kept _ _ ((still failed (.inl rfl)).trans same₁)
  · exact kept _ _ (still failed (dropLast_recordPath _))

/-! ### Blobs -/

variable [Blake3]

/-- A put of a blob leaves at its path what was there or, where nothing was, the content, and
what it reports stored is at the path. -/
def BlobEnds (t : FileTree Bytes) (content : Bytes) (t' : FileTree Bytes)
    (result : Except CoreError ContentHash) : Prop :=
  let path := blobPath (ContentHash.of content)
  (t' path = t path ∨ t path = none ∧ t' path = some (.file content)) ∧
    ∀ hash, result = .ok hash → hash = ContentHash.of content ∧ t' path ≠ none

/-- The contract of a put of a blob. -/
abbrev blobContract (hash : ContentHash) (pid nonce : Nat) :
    Contract (fsInterface Bytes) (FileTree Bytes) :=
  fsContract blobsDir {blobTmpPath (blobPath hash) pid nonce, blobPath hash}

omit [RecordJson Bytes] in
theorem putBlob_wp (t : FileTree Bytes) (content : Bytes) (hex : (ContentHash.of content).Hex)
    (pid nonce : Nat) :
    Wp (blobContract (ContentHash.of content) pid nonce) (BlobEnds t content) t
      (putBlob content pid nonce) := by
  -- Nothing moves at the blob's path before the rename.
  have still : ∀ {t' t'' : FileTree Bytes} {req : FsReq Bytes} {answer : Except IoError req.Answer},
      MayServe t' req answer t'' →
      req.Within blobsDir {blobTmpPath (blobPath (ContentHash.of content)) pid nonce} →
      t'' (blobPath (ContentHash.of content)) = t' (blobPath (ContentHash.of content)) := by
    intro t' t'' req answer served allowed
    refine (served.within allowed).same ?_ ?_
    · intro tmp
      exact blobPath_not_scratch hex (tmp ▸ blobTmpPath_scratch hex pid nonce)
    · intro part
      have short := part.length_le
      simp [blobPath_eq hex, blobsDir, Path.join] at short
  have kept : ∀ (t' : FileTree Bytes) (e : CoreError),
      t' (blobPath (ContentHash.of content)) = t (blobPath (ContentHash.of content)) →
        BlobEnds t content t' (.error e) :=
    fun t' e same => ⟨.inl same, fun _ => nofun⟩
  unfold putBlob
  refine send_wp trivial (fun found t₁ asked => ?_) (fun e t₁ failed => ?_)
  · obtain rfl : t₁ = t := asked.unmoved trivial
    have present := asked.answered
    cases found with
    | true =>
      exact ⟨.inl rfl, fun hash same => ⟨by cases same; rfl, FileTree.present_eq_true present⟩⟩
    | false =>
      have absent := FileTree.present_eq_false present
      refine send_wp (dropLast_blobPath hex) (fun _ t₂ made => ?_) (fun e t₂ failed => ?_)
      · have same₂ := still made (dropLast_blobPath hex)
        refine send_wp (.inl rfl) (fun _ t₃ wrote => ?_) (fun e t₃ failed => ?_)
        · have same₃ := (still wrote rfl).trans same₂
          refine send_wp ⟨.inl rfl, .inr rfl⟩ (fun _ t₄ renamed => ?_) (fun e t₄ failed => ?_)
          · have published := renamed.renamed wrote.written
            refine send_wp trivial (fun _ t₅ synced => ?_) (fun e t₅ failed => ?_)
            · obtain rfl : t₅ = t₄ := synced.unmoved trivial
              refine ⟨.inr ⟨absent, published⟩, fun hash same => ⟨by cases same; rfl, ?_⟩⟩
              rw [published]
              exact Option.some_ne_none _
            · obtain rfl : t₅ = t₄ := failed.unmoved trivial
              exact ⟨.inr ⟨absent, published⟩, fun _ => nofun⟩
          · obtain rfl : t₄ = t₃ := failed.unmoved_of_error
            exact kept _ _ same₃
        · exact kept _ _ ((still failed rfl).trans same₂)
      · exact kept _ _ (still failed (dropLast_blobPath hex))
  · obtain rfl : t₁ = t := failed.unmoved trivial
    exact kept _ _ rfl

end Gonzalo.Fs
