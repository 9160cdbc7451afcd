import Gonzalo.Fs.Views

/-!
# The tree as a backend

A tree mirrors a backend when the records and blobs at their paths are the stored ones. The
temporary files and the locks of different calls have different names, and no request but a
rename or a removal changes what lies at the path of a record or a blob.
-/

set_option autoImplicit false

namespace Gonzalo.Fs
open Gonzalo.Core Gonzalo.Lib

/-! ### Names of scratch files -/

theorem fileStem_of_notMem {name : List Char} (plain : '.' ∉ name) : fileStem name = name := by
  have dropped : name.reverse.dropWhile (· ≠ '.') = [] := by
    rw [List.dropWhile_eq_nil_iff]
    intro c mem
    have other : c ≠ '.' := fun same => plain (same ▸ List.mem_reverse.mp mem)
    simpa using other
  unfold fileStem
  rw [dropped]

/-- What is left of the name of a record's file; a dot that starts the name stays. -/
def recordStem (key : RecordKey) : String := if key.id = "" then ".json" else segment key.id

theorem fileStem_recordFile (key : RecordKey) :
    String.ofList (fileStem (recordFile key).toList) = recordStem key := by
  unfold recordStem
  split
  next empty =>
    simp only [recordFile, empty, segment_empty]
    decide
  next other =>
    have plain : '.' ∉ (segment key.id).toList := dot_notMem_segment _
    have dropped : (recordFile key).toList.reverse.dropWhile (· ≠ '.') =
        '.' :: (segment key.id).toList.reverse := by
      simp [recordFile, String.toList_append]
    have rest : (segment key.id).toList.reverse ≠ [] := by
      simpa [segment_eq_empty] using other
    unfold fileStem
    rw [dropped]
    cases reversed : (segment key.id).toList.reverse with
    | nil => exact absurd reversed rest
    | cons c before =>
      change String.ofList (c :: before).reverse = _
      rw [← reversed, List.reverse_reverse, String.ofList_toList]

theorem recordStem_injective {key key' : RecordKey} (same : recordStem key = recordStem key') :
    key.id = key'.id := by
  have dotted : ∀ id, segment id ≠ ".json" := by
    intro id stem
    exact dot_notMem_segment id (by rw [stem]; decide)
  unfold recordStem at same
  split at same <;> split at same
  next empty empty' => rw [empty, empty']
  next => exact absurd same.symm (dotted _)
  next => exact absurd same (dotted _)
  next => exact segment_injective same

theorem withExtension_recordPath (key : RecordKey) (ext : String) :
    (recordPath key).withExtension ext = recordDirs key ++ [recordStem key ++ "." ++ ext] := by
  unfold Path.withExtension
  rw [recordPath_eq, List.getLast?_concat]
  simp only [List.dropLast_concat, fileStem_recordFile]

theorem tmpPath_injective {key key' : RecordKey} (nested : Nested key)
    (same : tmpPath (recordPath key) = tmpPath (recordPath key')) : key = key' := by
  rw [tmpPath, tmpPath, withExtension_recordPath, withExtension_recordPath] at same
  obtain ⟨dirs, names⟩ := List.append_inj' same rfl
  have stems : recordStem key = recordStem key' :=
    (String.append_left_inj _).mp ((String.append_left_inj _).mp (List.singleton_inj.mp names))
  refine recordPath_injective nested ?_
  rw [recordPath_eq, recordPath_eq, dirs, recordFile, recordFile, recordStem_injective stems]

theorem getLast?_withExtension {path : Path} (nonempty : path ≠ []) {ext : String}
    (text : ext.toList ≠ []) :
    (path.withExtension ext).getLast?.bind (·.toList.getLast?) = ext.toList.getLast? := by
  unfold Path.withExtension
  cases last : path.getLast? with
  | none => exact absurd (List.getLast?_eq_none_iff.mp last) nonempty
  | some name =>
    simp only [List.getLast?_concat, Option.bind_some, String.toList_append]
    exact List.getLast?_append_of_ne_nil _ text

/-- Files with extensions that end apart are not the same. -/
theorem withExtension_ne {path path' : Path} (nonempty : path ≠ []) (nonempty' : path' ≠ [])
    {ext ext' : String} (text : ext.toList ≠ []) (text' : ext'.toList ≠ [])
    (apart : ext.toList.getLast? ≠ ext'.toList.getLast?) :
    path.withExtension ext ≠ path'.withExtension ext' := by
  intro same
  apply apart
  rw [← getLast?_withExtension nonempty text, ← getLast?_withExtension nonempty' text', same]

/-- The extension of a blob's temporary file ends with a digit. -/
theorem blobTmp_ends (pid nonce : Nat) :
    ∃ d : Char, d.isDigit ∧
      ("tmp." ++ toString pid ++ "." ++ toString nonce).toList.getLast? = some d := by
  have digits : (toString nonce).toList ≠ [] := by
    rw [toString_digits]
    exact Nat.toDigits_ne_nil
  have numeric : ∀ d ∈ (toString nonce).toList, d.isDigit := by
    rw [toString_digits]
    exact fun d mem => Nat.isDigit_of_mem_toDigits (by decide) (by decide) mem
  refine ⟨(toString nonce).toList.getLast digits, numeric _ (List.getLast_mem digits), ?_⟩
  rw [String.toList_append, List.getLast?_append_of_ne_nil _ digits,
    List.getLast?_eq_some_getLast digits]

theorem blobPath_ne_nil {hash : ContentHash} (hex : hash.Hex) : blobPath hash ≠ [] := by
  rw [blobPath_eq hex]
  exact List.cons_ne_nil _ _

/-- The temporary file of a blob is no temporary file of a record. -/
theorem blobTmpPath_ne {hash : ContentHash} (hex : hash.Hex) (pid nonce : Nat) (key : RecordKey) :
    blobTmpPath (blobPath hash) pid nonce ≠ tmpPath (recordPath key) := by
  obtain ⟨d, digit, last⟩ := blobTmp_ends pid nonce
  have nonempty : ("tmp." ++ toString pid ++ "." ++ toString nonce).toList ≠ [] := by
    intro empty
    rw [empty] at last
    cases last
  apply withExtension_ne (blobPath_ne_nil hex) (recordPath_ne_nil _) nonempty (by decide)
  intro same
  have letter : d = 'p' := Option.some.inj (last.symm.trans same)
  rw [letter] at digit
  exact absurd digit (by decide)

theorem toString_nat_injective {m n : Nat} (same : toString m = toString n) : m = n := by
  have digits : Nat.toDigits 10 m = Nat.toDigits 10 n := by
    rw [← toString_digits, ← toString_digits, same]
  rw [← @Nat.ofDigitChars_ten_toDigits m, digits, Nat.ofDigitChars_ten_toDigits]

/-- Temporary files of blobs are apart when their process or nonce is. -/
theorem blobTmpPath_injective {hash hash' : ContentHash} (hex : hash.Hex) (hex' : hash'.Hex)
    {pid nonce pid' nonce' : Nat}
    (same : blobTmpPath (blobPath hash) pid nonce = blobTmpPath (blobPath hash') pid' nonce') :
    pid = pid' ∧ nonce = nonce' := by
  have named : ∀ {hash : ContentHash} (pid nonce : Nat), hash.Hex →
      blobTmpPath (blobPath hash) pid nonce =
        ["blobs", hash.text ++ "." ++ ("tmp." ++ toString pid ++ "." ++ toString nonce)] := by
    intro hash pid nonce hex
    unfold blobTmpPath Path.withExtension
    simp only [blobPath_eq hex, List.getLast?_cons_cons, List.getLast?_singleton,
      fileStem_of_notMem (hex.notMem (by decide)), String.ofList_toList]
    rfl
  have undotted : ∀ n : Nat, '.' ∉ Nat.toDigits 10 n := fun n mem =>
    absurd (Nat.isDigit_of_mem_toDigits (by decide) (by decide) mem) (by decide)
  rw [named _ _ hex, named _ _ hex'] at same
  have names := congrArg String.toList (List.singleton_inj.mp (List.cons_injective same))
  simp only [String.toList_append, toString_digits, List.append_assoc] at names
  have lengths : hash.text.toList.length = hash'.text.toList.length := hex.1.trans hex'.1.symm
  have rests := (List.append_inj names lengths).2
  have numbers : Nat.toDigits 10 pid ++ '.' :: Nat.toDigits 10 nonce =
      Nat.toDigits 10 pid' ++ '.' :: Nat.toDigits 10 nonce' := by
    simpa using rests
  obtain ⟨pids, -, nonces⟩ :=
    (List.append_cons_inj_of_notMem (undotted pid) (undotted nonce)).mp numbers
  refine ⟨toString_nat_injective ?_, toString_nat_injective ?_⟩
  · exact String.toList_inj.mp (by rw [toString_digits, toString_digits, pids])
  · exact String.toList_inj.mp (by rw [toString_digits, toString_digits, nonces])

/-! ### What a call owns -/

/-- Where a record or a blob lies. -/
def Published (place : Path) : Prop :=
  (∃ key, place = recordPath key) ∨ ∃ hash : ContentHash, hash.Hex ∧ place = blobPath hash

theorem Published.not_scratch {place : Path} (published : Published place) : ¬ Scratch place := by
  rcases published with ⟨key, rfl⟩ | ⟨hash, hex, rfl⟩
  · exact recordPath_not_scratch key
  · exact blobPath_not_scratch hex

/-- No call makes a directory where a record or a blob lies. -/
theorem Published.not_above {place under : Path} (published : Published place)
    (made : under = blobsDir ∨ ∃ key, Apart key ∧ under = recordDirs key) : ¬ place <+: under := by
  intro above
  rcases made with rfl | ⟨key, apart, rfl⟩
  · rcases published with ⟨key, rfl⟩ | ⟨hash, hex, rfl⟩
    · have mem : recordFile key ∈ blobsDir := by
        apply above.subset
        rw [recordPath_eq]
        exact List.mem_append_right _ (List.mem_singleton_self _)
      have dot : '.' ∈ (recordFile key).toList := by simp [recordFile, String.toList_append]
      exact blobsDir_shallow.2 _ mem dot
    · have short := above.length_le
      simp [blobPath_eq hex, blobsDir, Path.join] at short
  · rcases published with ⟨key', rfl⟩ | ⟨hash, hex, rfl⟩
    · exact recordPath_not_above key' key above
    · obtain ⟨ns, coll⟩ := (dirs_reach_blobPath_iff key hex).mp above
      exact apart.2 ⟨ns, coll ▸ hex⟩

theorem FsView.Owns.scratch {v : FsView} {path : Path} (owns : v.Owns path) : Scratch path := by
  rcases owns with ⟨key, -, -, rfl⟩ | ⟨hash, hex, rfl⟩
  · exact tmpPath_scratch key
  · exact blobTmpPath_scratch hex _ _

/-- Two calls that share neither a lock nor a nonce own no file together. -/
theorem FsView.Owns.disjoint {v v' : FsView} {path : Path} (owns : v.Owns path)
    (owns' : v'.Owns path) (locks : ∀ lock, v.lock = some lock → v'.lock ≠ some lock) :
    v.around.pid = v'.around.pid ∧ v.around.nonce = v'.around.nonce := by
  rcases owns with ⟨key, apart, held, rfl⟩ | ⟨hash, hex, rfl⟩
  · rcases owns' with ⟨key', -, held', same⟩ | ⟨hash', hex', same⟩
    · obtain rfl := tmpPath_injective apart.1 same
      exact absurd held' (locks _ held)
    · exact absurd same.symm (blobTmpPath_ne hex' _ _ key)
  · rcases owns' with ⟨key', -, held', same⟩ | ⟨hash', hex', same⟩
    · exact absurd same (blobTmpPath_ne hex _ _ key')
    · exact blobTmpPath_injective hex hex' same

section Knowing

variable [Blake3] [RecordJson Bytes] {known : Set Bytes} {cap : Nat} {t t' : FileTree Bytes}
  {w : Backend} {v : FsView} {req : DiskReq Bytes} {answer : Except IoError req.Answer}

/-- What is no target stays where a record or a blob lies. -/
theorem FsView.Guard.frame (guard : v.Guard cap req) (served : DiskServes t req answer t')
    {place : Path} (published : Published place) (untouched : place ∉ req.targets) :
    t' place = t place := by
  rcases served.leaves untouched with same | ⟨-, ⟨under, rfl, above, -⟩ | rfl⟩
  · exact same
  · exact absurd above (published.not_above guard)
  · obtain ⟨-, key, -, rfl⟩ := guard
    exact absurd (lockPath_scratch key) published.not_scratch

end Knowing

/-! ### The mirror -/

/-- The contents of the file at a path. -/
def fileAt (t : FileTree Bytes) (path : Path) : Option Bytes :=
  match t path with
  | some (.file bytes) => some bytes
  | _ => none

variable [Blake3] [RecordJson Bytes]

/-- The records and blobs of the tree are those of the backend, and each blob is one of the
known contents under its own hash. -/
structure Mirrors (known : Set Bytes) (t : FileTree Bytes) (w : Backend) : Prop where
  records : ∀ key, Apart key → w.store.getRaw key = recordAt t (recordPath key)
  blobs : ∀ hash : ContentHash, hash.Hex → w.blobs[hash]? = fileAt t (blobPath hash)
  free : ∀ hash : ContentHash, hash.Hex → t (blobPath hash) ≠ some .dir
  named : ∀ hash content, w.blobs[hash]? = some content →
    hash = ContentHash.of content ∧ content ∈ known

namespace Mirrors

variable {known : Set Bytes} {t t' : FileTree Bytes} {w : Backend}

theorem keeps (mirrors : Mirrors known t w)
    (same : ∀ place, Published place → t' place = t place) : Mirrors known t' w where
  records := by
    intro key apart
    rw [mirrors.records key apart, recordAt, recordAt, same _ (.inl ⟨key, rfl⟩)]
  blobs := by
    intro hash hex
    rw [mirrors.blobs hash hex, fileAt, fileAt, same _ (.inr ⟨hash, hex, rfl⟩)]
  free := by
    intro hash hex
    rw [same _ (.inr ⟨hash, hex, rfl⟩)]
    exact mirrors.free hash hex
  named := mirrors.named

/-- A change of one record, on both sides. -/
theorem record (mirrors : Mirrors known t w) {key : RecordKey}
    (same : ∀ place, Published place → place ≠ recordPath key → t' place = t place)
    {store : MemStore} (at_key : store.getRaw key = recordAt t' (recordPath key))
    (others : ∀ key', key' ≠ key → store.getRaw key' = w.store.getRaw key') :
    Mirrors known t' { w with store := store } where
  records := by
    intro key' apart
    by_cases here : key' = key
    · subst here
      exact at_key
    · have away : recordPath key' ≠ recordPath key := fun shared =>
        here (recordPath_injective apart.1 shared)
      rw [others key' here, mirrors.records key' apart, recordAt, recordAt,
        same _ (.inl ⟨key', rfl⟩) away]
  blobs := by
    intro hash hex
    rw [mirrors.blobs hash hex, fileAt, fileAt,
      same _ (.inr ⟨hash, hex, rfl⟩) (recordPath_ne_blobPath key hex).symm]
  free := by
    intro hash hex
    rw [same _ (.inr ⟨hash, hex, rfl⟩) (recordPath_ne_blobPath key hex).symm]
    exact mirrors.free hash hex
  named := mirrors.named

/-- A change of one blob, on both sides. -/
theorem blob (mirrors : Mirrors known t w) {hash : ContentHash} (hex : hash.Hex)
    (same : ∀ place, Published place → place ≠ blobPath hash → t' place = t place)
    (free : t' (blobPath hash) ≠ some .dir) {blobs : Std.ExtTreeMap ContentHash Bytes compare}
    (at_hash : blobs[hash]? = fileAt t' (blobPath hash))
    (others : ∀ hash' : ContentHash, hash' ≠ hash → blobs[hash']? = w.blobs[hash']?)
    (named : ∀ content, blobs[hash]? = some content →
      hash = ContentHash.of content ∧ content ∈ known) :
    Mirrors known t' { w with blobs := blobs } where
  records := by
    intro key apart
    rw [mirrors.records key apart, recordAt, recordAt,
      same _ (.inl ⟨key, rfl⟩) (recordPath_ne_blobPath key hex)]
  blobs := by
    intro hash' hex'
    by_cases here : hash' = hash
    · subst here
      exact at_hash
    · have away : blobPath hash' ≠ blobPath hash := fun shared =>
        here (blobPath_injective hex' hex shared)
      rw [others hash' here, mirrors.blobs hash' hex', fileAt, fileAt,
        same _ (.inr ⟨hash', hex', rfl⟩) away]
  free := by
    intro hash' hex'
    by_cases here : hash' = hash
    · subst here
      exact free
    · have away : blobPath hash' ≠ blobPath hash := fun shared =>
        here (blobPath_injective hex' hex shared)
      rw [same _ (.inr ⟨hash', hex', rfl⟩) away]
      exact mirrors.free hash' hex'
  named := by
    intro hash' content stored
    by_cases here : hash' = hash
    · subst here
      exact named content stored
    · rw [others hash' here] at stored
      exact mirrors.named hash' content stored

/-- A blob is there or no file of its name is. -/
theorem absent_iff (mirrors : Mirrors known t w) {hash : ContentHash} (hex : hash.Hex) :
    w.blobs[hash]? = none ↔ t (blobPath hash) = none := by
  have free := mirrors.free hash hex
  rw [mirrors.blobs hash hex, fileAt]
  cases there : t (blobPath hash) with
  | none => simp
  | some node =>
    cases node with
    | dir => exact absurd there free
    | file bytes => simp

theorem contains (mirrors : Mirrors known t w) {hash : ContentHash} (hex : hash.Hex) {found : Bool}
    (answered : t.present (blobPath hash) = .ok found) : w.blobs.contains hash = found := by
  have absent := mirrors.absent_iff hex
  rw [Std.ExtTreeMap.contains_eq_isSome_getElem?]
  cases found with
  | true =>
    have there := FileTree.present_eq_true answered
    exact Option.isSome_iff_ne_none.mpr (there ∘ absent.mp)
  | false =>
    rw [absent.mpr (FileTree.present_eq_false answered)]
    rfl

/-- A record is written. -/
theorem wrote (mirrors : Mirrors known t w) {stored : Record} {bytes : Bytes}
    (same : ∀ place, Published place → place ≠ recordPath stored.key → t' place = t place)
    (there : t' (recordPath stored.key) = some (.file bytes))
    (decoded : decode bytes = .ok stored) :
    Mirrors known t' { w with store := w.store.insert stored } := by
  refine mirrors.record same ?_ fun key' other => ?_
  · rw [MemStore.getRaw_insert, if_pos rfl]
    simp [recordAt, there, decoded, Except.toOption]
  · rw [MemStore.getRaw_insert, if_neg (Ne.symm other)]

/-- A record is removed. -/
theorem removed (mirrors : Mirrors known t w) {key : RecordKey}
    (same : ∀ place, Published place → place ≠ recordPath key → t' place = t place)
    (absent : t' (recordPath key) = none) :
    Mirrors known t' { w with store := w.store.erase key } := by
  refine mirrors.record same ?_ fun key' other => ?_
  · rw [MemStore.getRaw_erase, if_pos rfl]
    simp [recordAt, absent]
  · rw [MemStore.getRaw_erase, if_neg (Ne.symm other)]

omit [RecordJson Bytes] in
theorem getElem?_putBlob (w : Backend) (content : Bytes) (hash : ContentHash) :
    (w.putBlob content).blobs[hash]? =
      if ContentHash.of content = hash ∧ w.blobs[hash]? = none then some content
      else w.blobs[hash]? := by
  simp only [Backend.putBlob, Std.ExtTreeMap.getElem?_insertIfNew, compare_eq_iff_eq]
  refine if_congr (and_congr_right ?_) rfl rfl
  rintro rfl
  simp

/-- A put of a blob that is there changes nothing. -/
theorem stored_already (mirrors : Mirrors known t w) {content : Bytes}
    (there : w.blobs[ContentHash.of content]? ≠ none) : Mirrors known t (w.putBlob content) := by
  have same : ∀ hash : ContentHash, (w.putBlob content).blobs[hash]? = w.blobs[hash]? := by
    intro hash
    rw [getElem?_putBlob, if_neg]
    rintro ⟨rfl, absent⟩
    exact there absent
  exact ⟨mirrors.records, fun hash hex => (same hash).trans (mirrors.blobs hash hex), mirrors.free,
    fun hash content stored => mirrors.named hash content (same hash ▸ stored)⟩

/-- A blob is put. -/
theorem published (mirrors : Mirrors known t w) {content : Bytes}
    (hex : (ContentHash.of content).Hex) (listed : content ∈ known)
    (free : ∀ bytes ∈ known, ContentHash.of bytes = ContentHash.of content → bytes = content)
    (same : ∀ place, Published place → place ≠ blobPath (.of content) → t' place = t place)
    (there : t' (blobPath (.of content)) = some (.file content)) :
    Mirrors known t' (w.putBlob content) := by
  have at_hash : (w.putBlob content).blobs[ContentHash.of content]? = some content := by
    rw [getElem?_putBlob]
    cases before : w.blobs[ContentHash.of content]? with
    | none => simp
    | some bytes =>
      obtain ⟨named, mem⟩ := mirrors.named _ bytes before
      simp [free bytes mem named.symm]
  refine mirrors.blob hex same (by rw [there]; simp) ?_ (fun hash' other => ?_)
    fun content' stored => ?_
  · exact at_hash.trans (by rw [fileAt, there])
  · have step := getElem?_putBlob w content hash'
    rwa [if_neg fun here => other here.1.symm] at step
  · cases at_hash.symm.trans stored
    exact ⟨rfl, listed⟩

/-- A blob is deleted. -/
theorem deleted (mirrors : Mirrors known t w) {hash : ContentHash} (hex : hash.Hex)
    (same : ∀ place, Published place → place ≠ blobPath hash → t' place = t place)
    (absent : t' (blobPath hash) = none) : Mirrors known t' (w.deleteBlob hash) := by
  have at_hash : (w.deleteBlob hash).blobs[hash]? = none := by simp [Backend.deleteBlob]
  refine mirrors.blob hex same (by rw [absent]; simp) ?_ (fun hash' other => ?_)
    fun content stored => ?_
  · exact at_hash.trans (by rw [fileAt, absent])
  · simp [Std.ExtTreeMap.getElem?_erase, Ne.symm other]
  · cases at_hash.symm.trans stored

end Mirrors

end Gonzalo.Fs
