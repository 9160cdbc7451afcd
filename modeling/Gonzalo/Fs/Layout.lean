import Gonzalo.Core.Segments
import Gonzalo.Lib.FileSystem

/-!
# Where records and blobs lie

`gonzalo-store-fs/src/layout.rs`, from the root of the store. The git store uses the same
paths for records. Joining an empty name leads nowhere, so a key with an empty namespace or
collection lies where another key does, and a record in a collection of `blobs` needs a
directory where a blob may lie.
-/

set_option autoImplicit false

namespace Gonzalo.Fs
open Gonzalo.Core Gonzalo.Lib

/-- `record_path`. -/
def recordPath (key : RecordKey) : Path :=
  let components := recordComponents key
  ((Path.join [] components.1).join components.2.1).join components.2.2

/-- `blobs_dir`. -/
def blobsDir : Path := Path.join [] "blobs"

/-- `blob_path`. -/
def blobPath (hash : ContentHash) : Path := blobsDir.join hash.text

/-- A key whose namespace and collection are directories of their own. -/
def Nested (key : RecordKey) : Prop := key.ns ≠ "" ∧ key.collection ≠ ""

/-- The directories above a record. -/
def recordDirs (key : RecordKey) : Path := (Path.join [] (segment key.ns)).join (segment key.collection)

/-- The file name of a record. -/
def recordFile (key : RecordKey) : String := segment key.id ++ ".json"

theorem recordFile_ne_empty (key : RecordKey) : recordFile key ≠ "" := by
  intro empty
  have length := congrArg String.length empty
  rw [recordFile, String.length_append] at length
  simp at length

theorem recordPath_eq (key : RecordKey) : recordPath key = recordDirs key ++ [recordFile key] :=
  if_neg (recordFile_ne_empty key)

theorem recordDirs_eq (key : RecordKey) :
    recordDirs key = [segment key.ns, segment key.collection].filter (· ≠ "") := by
  unfold recordDirs Path.join
  by_cases ns : segment key.ns = "" <;> by_cases coll : segment key.collection = "" <;>
    simp [ns, coll]

theorem recordDirs_nested {key : RecordKey} (nested : Nested key) :
    recordDirs key = [segment key.ns, segment key.collection] := by
  rw [recordDirs_eq]
  simp [segment_eq_empty, nested.1, nested.2]

/-- No directory above a record has a dot in its name. -/
theorem dot_notMem_recordDirs (key : RecordKey) : ∀ name ∈ recordDirs key, '.' ∉ name.toList := by
  intro name mem
  rw [recordDirs_eq, List.mem_filter] at mem
  rcases List.mem_pair.mp mem.1 with rfl | rfl
  · exact dot_notMem_segment _
  · exact dot_notMem_segment _

theorem length_recordDirs (key : RecordKey) : (recordDirs key).length ≤ 2 := by
  rw [recordDirs_eq]
  exact List.length_filter_le _ _

theorem nested_of_length {key : RecordKey} (deep : (recordDirs key).length = 2) : Nested key := by
  rw [recordDirs_eq] at deep
  constructor
  · rintro ns
    by_cases coll : segment key.collection = "" <;> simp [ns, segment_empty, coll] at deep
  · rintro coll
    by_cases ns : segment key.ns = "" <;> simp [coll, segment_empty, ns] at deep

theorem recordFile_injective {key key' : RecordKey} (same : recordFile key = recordFile key') :
    key.id = key'.id :=
  segment_injective ((String.append_left_inj ".json").mp same)

theorem filter_pair_eq_iff (a b a' b' : String) :
    [a, b].filter (· ≠ "") = [a', b'].filter (· ≠ "") ↔
      a = a' ∧ b = b' ∨ (a = "" ∧ b' = "" ∧ b = a' ∨ b = "" ∧ a' = "" ∧ a = b') := by
  -- Which of the four names are empty decides what is left of them.
  by_cases ha : a = "" <;> by_cases hb : b = "" <;> by_cases ha' : a' = "" <;>
    by_cases hb' : b' = "" <;> simp [ha, hb, ha', hb', Ne.symm]

theorem recordDirs_eq_iff (key key' : RecordKey) :
    recordDirs key = recordDirs key' ↔ key.ns = key'.ns ∧ key.collection = key'.collection ∨
      (key.ns = "" ∧ key'.collection = "" ∧ key.collection = key'.ns ∨
        key.collection = "" ∧ key'.ns = "" ∧ key.ns = key'.collection) := by
  have inj : ∀ {a b : String}, segment a = segment b ↔ a = b := segment_injective.eq_iff
  rw [recordDirs_eq, recordDirs_eq, filter_pair_eq_iff]
  simp only [inj, segment_eq_empty]

/-- Two records share a path when they share an id and the names that are left of their
namespace and collection. -/
theorem recordPath_eq_iff (key key' : RecordKey) :
    recordPath key = recordPath key' ↔ key = key' ∨ key.id = key'.id ∧
      (key.ns = "" ∧ key'.collection = "" ∧ key.collection = key'.ns ∨
        key.collection = "" ∧ key'.ns = "" ∧ key.ns = key'.collection) := by
  have paths : recordPath key = recordPath key' ↔
      recordDirs key = recordDirs key' ∧ key.id = key'.id := by
    rw [recordPath_eq, recordPath_eq]
    constructor
    · intro same
      obtain ⟨dirs, files⟩ := List.append_inj' same rfl
      exact ⟨dirs, recordFile_injective (List.singleton_inj.mp files)⟩
    · rintro ⟨dirs, id⟩
      rw [dirs, recordFile, recordFile, id]
  have whole : key = key' ↔ (key.ns = key'.ns ∧ key.collection = key'.collection) ∧ key.id = key'.id := by
    cases key
    cases key'
    simp only [RecordKey.mk.injEq, and_assoc]
  rw [paths, recordDirs_eq_iff, or_and_right, whole]
  exact or_congr_right And.comm

theorem recordPath_injective {key key' : RecordKey} (nested : Nested key)
    (same : recordPath key = recordPath key') : key = key' := by
  rcases (recordPath_eq_iff key key').mp same with same | ⟨-, ⟨ns, -⟩ | ⟨coll, -⟩⟩
  · exact same
  · exact absurd ns nested.1
  · exact absurd coll nested.2

/-! ### Blobs -/

theorem blobPath_eq {hash : ContentHash} (hex : hash.Hex) : blobPath hash = ["blobs", hash.text] :=
  if_neg hex.ne_empty

theorem length_blobPath (hash : ContentHash) : (blobPath hash).length ≤ 2 := by
  unfold blobPath blobsDir Path.join
  split <;> simp

theorem blobPath_injective {hash hash' : ContentHash} (hex : hash.Hex) (hex' : hash'.Hex)
    (same : blobPath hash = blobPath hash') : hash = hash' := by
  rw [blobPath_eq hex, blobPath_eq hex'] at same
  cases hash
  cases hash'
  simp_all

/-- No record lies where a blob does. -/
theorem recordPath_ne_blobPath (key : RecordKey) {hash : ContentHash} (hex : hash.Hex) :
    recordPath key ≠ blobPath hash := by
  rw [recordPath_eq, blobPath_eq hex]
  intro same
  have last : recordFile key = hash.text :=
    List.singleton_inj.mp (List.append_inj' (show _ = ["blobs"] ++ [hash.text] from same) rfl).2
  have dot : '.' ∈ (recordFile key).toList := by simp [recordFile, String.toList_append]
  rw [last] at dot
  exact hex.notMem (by decide) dot

/-- A record needs a directory where a blob lies when its namespace is `blobs` and its
collection the blob's hash. -/
theorem dirs_reach_blobPath_iff (key : RecordKey) {hash : ContentHash} (hex : hash.Hex) :
    blobPath hash <+: recordDirs key ↔ key.ns = "blobs" ∧ key.collection = hash.text := by
  have blobs : segment "blobs" = "blobs" := by decide
  have names : segment key.ns = "blobs" ∧ segment key.collection = hash.text ↔
      key.ns = "blobs" ∧ key.collection = hash.text := by
    constructor
    · rintro ⟨ns, coll⟩
      exact ⟨segment_injective (ns.trans blobs.symm), segment_injective (coll.trans hex.segment_eq.symm)⟩
    · rintro ⟨ns, coll⟩
      rw [ns, coll]
      exact ⟨blobs, hex.segment_eq⟩
  rw [← names, blobPath_eq hex]
  constructor
  · intro part
    have long := part.length_le
    have whole : recordDirs key = ["blobs", hash.text] :=
      (part.eq_of_length (le_antisymm long (length_recordDirs key))).symm
    have nested : Nested key := nested_of_length (by rw [whole]; rfl)
    rw [recordDirs_nested nested] at whole
    simpa using whole
  · rintro ⟨ns, coll⟩
    rw [recordDirs_eq, ns, coll]
    simp [hex.ne_empty]

end Gonzalo.Fs
