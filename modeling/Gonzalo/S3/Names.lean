import Gonzalo.Core.Segments
import Gonzalo.S3.Bucket

/-!
# The names of a bucket's objects

A bucket holds four kinds of object in one space of names: records, the markers of
tombstones, the flags of collections and blobs. Each parser of
`gonzalo-store-s3/src/lib.rs` reads the names of its own kind and no other, so the kinds
never share a name.
-/

set_option autoImplicit false

namespace Gonzalo.S3
open Gonzalo.Core

/-- `marked_flag_key`. -/
def markedFlagKey (coll : Collection) : String :=
  segment coll.1 ++ "/" ++ segment coll.2 ++ "/_tombstone_markers"

/-- The name of a blob: `BLOB_PREFIX` and its hash. -/
def blobKey (hash : ContentHash) : String := "blobs/" ++ hash.text

/-- `parse_object_key`. -/
def parseObjectKey (s : String) : Option RecordKey :=
  match stripSuffix s ".json" with
  | none => none
  | some rest =>
    match splitAt rest '/' with
    | [ns, coll, id] => some ⟨decodeSegment ns, decodeSegment coll, decodeSegment id⟩
    | _ => none

/-- `parse_marker_key`. -/
def parseMarkerKey (s : String) : Option RecordKey := (stripSuffix s ".tombstone").bind parseObjectKey

/-- `blob_hash_from_key`. -/
def blobHashFromKey (s : String) : Option ContentHash :=
  match stripPrefix s "blobs/" with
  | none => none
  | some rest => if rest = "" ∨ '/' ∈ rest.toList ∨ '.' ∈ rest.toList then none else some ⟨rest⟩

/-- What a bucket holds objects for. -/
inductive S3Object where
  | record (key : RecordKey)
  | marker (key : RecordKey)
  | flag (coll : Collection)
  | blob (hash : BlobHash)

/-- The name of an object. -/
def S3Object.name : S3Object → String
  | record key => objectKey key
  | marker key => markerKey key
  | flag coll => markedFlagKey coll
  | blob hash => blobKey hash.hash

/-! ### Reading names -/

theorem objectKey_eq (key : RecordKey) : objectKey key =
    segment key.ns ++ "/" ++ segment key.collection ++ "/" ++ segment key.id ++ ".json" := by
  simp only [objectKey, recordComponents, String.append_assoc]

theorem parseObjectKey_objectKey (key : RecordKey) : parseObjectKey (objectKey key) = some key := by
  have stripped : stripSuffix (objectKey key) ".json" =
      some (segment key.ns ++ "/" ++ segment key.collection ++ "/" ++ segment key.id) :=
    stripSuffix_eq_some.mpr (objectKey_eq key)
  have parts : splitAt (segment key.ns ++ "/" ++ segment key.collection ++ "/" ++ segment key.id) '/' =
      [segment key.ns, segment key.collection, segment key.id] :=
    splitAt_join (slash_notMem_segment key.ns) (slash_notMem_segment key.collection)
      (slash_notMem_segment key.id)
  simp only [parseObjectKey, stripped, parts, decodeSegment_segment]

theorem dot_notMem_markedFlagKey (coll : Collection) : '.' ∉ (markedFlagKey coll).toList := by
  have ns := dot_notMem_segment coll.1
  have col := dot_notMem_segment coll.2
  simp [markedFlagKey, String.toList_append, ns, col]

theorem dot_notMem_blobKey (hash : BlobHash) : '.' ∉ (blobKey hash.hash).toList := by
  have digits := hash.hex.notMem (c := '.') (by decide)
  simp [blobKey, String.toList_append, digits]

/-- `parse_object_key` reads the names of records and no others. -/
theorem parseObjectKey_name (o : S3Object) (key : RecordKey) :
    parseObjectKey o.name = some key ↔ o = .record key := by
  cases o with
  | record own =>
    rw [S3Object.name, parseObjectKey_objectKey]
    simp
  | marker own =>
    have none : stripSuffix (markerKey own) ".json" = none :=
      stripSuffix_of_last (by decide) (by decide) (by decide)
    simp [S3Object.name, parseObjectKey, none]
  | flag coll =>
    have none := @stripSuffix_of_no_dot _ ".json" (dot_notMem_markedFlagKey coll) (by decide)
    simp [S3Object.name, parseObjectKey, none]
  | blob hash =>
    have none := @stripSuffix_of_no_dot _ ".json" (dot_notMem_blobKey hash) (by decide)
    simp [S3Object.name, parseObjectKey, none]

/-- `parse_marker_key` reads the names of markers and no others. -/
theorem parseMarkerKey_name (o : S3Object) (key : RecordKey) :
    parseMarkerKey o.name = some key ↔ o = .marker key := by
  cases o with
  | record own =>
    have none : stripSuffix (objectKey own) ".tombstone" = none := by
      rw [objectKey_eq]
      exact stripSuffix_of_last (by decide) (by decide) (by decide)
    simp [S3Object.name, parseMarkerKey, none]
  | marker own =>
    have stripped : stripSuffix (markerKey own) ".tombstone" = some (objectKey own) :=
      stripSuffix_eq_some.mpr rfl
    simp [S3Object.name, parseMarkerKey, stripped, parseObjectKey_objectKey]
  | flag coll =>
    have none := @stripSuffix_of_no_dot _ ".tombstone" (dot_notMem_markedFlagKey coll)
      (by decide)
    simp [S3Object.name, parseMarkerKey, none]
  | blob hash =>
    have none := @stripSuffix_of_no_dot _ ".tombstone" (dot_notMem_blobKey hash) (by decide)
    simp [S3Object.name, parseMarkerKey, none]

theorem blobHashFromKey_eq_some {s : String} {hash : ContentHash} :
    blobHashFromKey s = some hash ↔
      s = blobKey hash ∧ hash.text ≠ "" ∧ '/' ∉ hash.text.toList ∧ '.' ∉ hash.text.toList := by
  unfold blobHashFromKey
  constructor
  · intro read
    split at read
    next => cases read
    next rest stripped =>
      split at read
      next => cases read
      next plain =>
        cases read
        push Not at plain
        exact ⟨stripPrefix_eq_some.mp stripped, plain⟩
  · rintro ⟨rfl, nonempty, slash, dot⟩
    have stripped : stripPrefix (blobKey hash) "blobs/" = some hash.text :=
      stripPrefix_eq_some.mpr rfl
    simp only [stripped, nonempty, slash, dot, or_self, if_false]

/-- `blob_hash_from_key` reads the names of blobs and no others. -/
theorem blobHashFromKey_name (o : S3Object) (hash : ContentHash) :
    blobHashFromKey o.name = some hash ↔ ∃ own, o = .blob own ∧ own.hash = hash := by
  rw [blobHashFromKey_eq_some]
  have dotless : '.' ∉ hash.text.toList → '.' ∉ (blobKey hash).toList := by
    intro plain
    simp [blobKey, String.toList_append, plain]
  cases o with
  | record own =>
    have dot : '.' ∈ (objectKey own).toList := by
      rw [objectKey_eq, String.toList_append]
      simp
    constructor
    · rintro ⟨same, -, -, plain⟩
      rw [S3Object.name] at same
      exact absurd (same ▸ dot) (dotless plain)
    · rintro ⟨_, impossible, -⟩
      cases impossible
  | marker own =>
    have dot : '.' ∈ (markerKey own).toList := by simp [markerKey, String.toList_append]
    constructor
    · rintro ⟨same, -, -, plain⟩
      rw [S3Object.name] at same
      exact absurd (same ▸ dot) (dotless plain)
    · rintro ⟨_, impossible, -⟩
      cases impossible
  | flag coll =>
    constructor
    · rintro ⟨same, -, slash, -⟩
      -- A flag's name has two separators and a blob's has one.
      have counts := congrArg (fun s => s.toList.count '/') same
      simp [S3Object.name, markedFlagKey, blobKey, String.toList_append,
        List.count_eq_zero_of_not_mem (slash_notMem_segment coll.1),
        List.count_eq_zero_of_not_mem (slash_notMem_segment coll.2),
        List.count_eq_zero_of_not_mem slash] at counts
    · rintro ⟨_, impossible, -⟩
      cases impossible
  | blob own =>
    have nonempty : own.hash.text ≠ "" := by
      intro empty
      have length := own.hex.1
      rw [empty] at length
      exact absurd length (by decide)
    have slash := own.hex.notMem (c := '/') (by decide)
    have dot := own.hex.notMem (c := '.') (by decide)
    constructor
    · rintro ⟨same, -⟩
      have text : own.hash.text = hash.text := (String.append_right_inj "blobs/").mp same
      refine ⟨own, rfl, ?_⟩
      cases hash
      exact congrArg ContentHash.mk text
    · rintro ⟨_, ⟨⟩, rfl⟩
      exact ⟨rfl, nonempty, slash, dot⟩

theorem markedFlagKey_injective : Function.Injective markedFlagKey := by
  intro coll coll' same
  have parts : ∀ c : Collection, splitAt (markedFlagKey c) '/' =
      [segment c.1, segment c.2, "_tombstone_markers"] := by
    intro c
    have ending : "/_tombstone_markers" = "/" ++ "_tombstone_markers" := by decide
    rw [markedFlagKey, ending, ← String.append_assoc]
    exact splitAt_join (slash_notMem_segment c.1) (slash_notMem_segment c.2) (by decide)
  have split := parts coll
  rw [same, parts coll'] at split
  simp only [List.cons.injEq, and_true] at split
  exact Prod.ext (segment_injective split.1.symm) (segment_injective split.2.symm)

/-- No two objects share a name, of one kind or of two. -/
theorem S3Object.name_injective : Function.Injective S3Object.name := by
  intro o o' same
  cases o with
  | record key =>
    have read := (parseObjectKey_name (.record key) key).mpr rfl
    rw [same] at read
    exact ((parseObjectKey_name o' key).mp read).symm
  | marker key =>
    have read := (parseMarkerKey_name (.marker key) key).mpr rfl
    rw [same] at read
    exact ((parseMarkerKey_name o' key).mp read).symm
  | blob hash =>
    have read := (blobHashFromKey_name (.blob hash) hash.hash).mpr ⟨hash, rfl, rfl⟩
    rw [same] at read
    obtain ⟨own, rfl, named⟩ := (blobHashFromKey_name o' hash.hash).mp read
    cases own
    cases hash
    cases named
    rfl
  | flag coll =>
    cases o' with
    | flag coll' => rw [markedFlagKey_injective same]
    | record key =>
      have read := (parseObjectKey_name (.record key) key).mpr rfl
      rw [← same] at read
      cases (parseObjectKey_name (.flag coll) key).mp read
    | marker key =>
      have read := (parseMarkerKey_name (.marker key) key).mpr rfl
      rw [← same] at read
      cases (parseMarkerKey_name (.flag coll) key).mp read
    | blob hash =>
      have read := (blobHashFromKey_name (.blob hash) hash.hash).mpr ⟨hash, rfl, rfl⟩
      rw [← same] at read
      obtain ⟨_, impossible, -⟩ := (blobHashFromKey_name (.flag coll) hash.hash).mp read
      cases impossible

/-! ### Listing -/

/-- What `list_objects` takes one listed name for. -/
inductive SortedName where
  | record (key : RecordKey)
  | marker (key : RecordKey)

/-- How `list_objects` reads one listed name. -/
def sortName (under : KeyPrefix) (name : String) : Option SortedName :=
  match parseObjectKey name with
  | some key => if under.matches key then some (.record key) else none
  | none =>
    match parseMarkerKey name with
    | some key => if under.matches key then some (.marker key) else none
    | none => none

/-- A listing finds the records and the markers under its prefix and takes nothing else for
one. -/
theorem sortName_name (under : KeyPrefix) (o : S3Object) (found : SortedName) :
    sortName under o.name = some found ↔
      ∃ key, under.matches key = true ∧
        ((o = .record key ∧ found = .record key) ∨ (o = .marker key ∧ found = .marker key)) := by
  have records := parseObjectKey_name o
  have markers := parseMarkerKey_name o
  cases o with
  | record own =>
    have read := (records own).mpr rfl
    have sorted : sortName under (S3Object.record own).name =
        if under.matches own then some (.record own) else none := by
      simp only [sortName, read]
    rw [sorted, Option.ite_none_right_eq_some]
    constructor
    · rintro ⟨asked, same⟩
      cases same
      exact ⟨own, asked, .inl ⟨rfl, rfl⟩⟩
    · rintro ⟨key, asked, ⟨⟨⟩, rfl⟩ | ⟨impossible, -⟩⟩
      · exact ⟨asked, rfl⟩
      · cases impossible
  | marker own =>
    have read := (markers own).mpr rfl
    have other : parseObjectKey (S3Object.marker own).name = none :=
      Option.eq_none_iff_forall_ne_some.mpr fun key none => by cases (records key).mp none
    have sorted : sortName under (S3Object.marker own).name =
        if under.matches own then some (.marker own) else none := by
      simp only [sortName, read, other]
    rw [sorted, Option.ite_none_right_eq_some]
    constructor
    · rintro ⟨asked, same⟩
      cases same
      exact ⟨own, asked, .inr ⟨rfl, rfl⟩⟩
    · rintro ⟨key, asked, ⟨impossible, -⟩ | ⟨⟨⟩, rfl⟩⟩
      · cases impossible
      · exact ⟨asked, rfl⟩
  | flag coll =>
    have unread : parseObjectKey (S3Object.flag coll).name = none :=
      Option.eq_none_iff_forall_ne_some.mpr fun key none => by cases (records key).mp none
    have unmarked : parseMarkerKey (S3Object.flag coll).name = none :=
      Option.eq_none_iff_forall_ne_some.mpr fun key none => by cases (markers key).mp none
    simp [sortName, unread, unmarked]
  | blob hash =>
    have unread : parseObjectKey (S3Object.blob hash).name = none :=
      Option.eq_none_iff_forall_ne_some.mpr fun key none => by cases (records key).mp none
    have unmarked : parseMarkerKey (S3Object.blob hash).name = none :=
      Option.eq_none_iff_forall_ne_some.mpr fun key none => by cases (markers key).mp none
    simp [sortName, unread, unmarked]

/-- Segments and object keys read back; no two objects share a name; each parser reads the
names of its own kind alone; so a write to one object leaves every other as it was. -/
theorem object_names_separate :
    (∀ s, decodeSegment (segment s) = s) ∧
      (∀ key, parseObjectKey (objectKey key) = some key) ∧
      Function.Injective S3Object.name ∧
      (∀ (o : S3Object) key, parseObjectKey o.name = some key ↔ o = .record key) ∧
      (∀ (o : S3Object) key, parseMarkerKey o.name = some key ↔ o = .marker key) ∧
      (∀ (o : S3Object) hash, blobHashFromKey o.name = some hash ↔
        ∃ own, o = .blob own ∧ own.hash = hash) ∧
      (∀ (under : KeyPrefix) (o : S3Object) found, sortName under o.name = some found ↔
        ∃ key, under.matches key = true ∧
          ((o = .record key ∧ found = .record key) ∨ (o = .marker key ∧ found = .marker key))) ∧
      ∀ (contents : String → Option Bytes) (o o' : S3Object) (new : Option Bytes), o' ≠ o →
        Function.update contents o.name new o'.name = contents o'.name := by
  refine ⟨decodeSegment_segment, parseObjectKey_objectKey, S3Object.name_injective,
    parseObjectKey_name, parseMarkerKey_name, blobHashFromKey_name, sortName_name, ?_⟩
  intro contents o o' new other
  exact Function.update_of_ne (fun same => other (S3Object.name_injective same)) _ _

end Gonzalo.S3
