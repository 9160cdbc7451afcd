import Gonzalo.Fs.Separation

/-!
# Listing a tidy tree

The walk over namespaces, collections and files finds every record once. What it passes
over are the blobs, which lie too high, and the files beside records.
-/

set_option autoImplicit false

namespace Gonzalo.Fs
open Gonzalo.Core Gonzalo.Lib

/-- A process alone with a file system in which nothing goes wrong. -/
abbrev calm : Contract (fsInterface Bytes) (FileTree Bytes) := .ofRelation Serves

/-- A walk adds these keys, each once, and changes nothing. -/
def Collects (t : FileTree Bytes) (out : List RecordKey) (keys : RecordKey → Prop)
    (t' : FileTree Bytes) (result : Except CoreError (List RecordKey)) : Prop :=
  t' = t ∧ ∃ found, result = .ok (out ++ found) ∧ found.Nodup ∧ ∀ key, key ∈ found ↔ keys key

theorem Collects.congr {t t' : FileTree Bytes} {out : List RecordKey} {keys keys' : RecordKey → Prop}
    (same : ∀ key, keys key ↔ keys' key) {result : Except CoreError (List RecordKey)}
    (collects : Collects t out keys t' result) : Collects t out keys' t' result := by
  obtain ⟨unmoved, found, value, nodup, mem⟩ := collects
  exact ⟨unmoved, found, value, nodup, fun key => (mem key).trans (same key)⟩

/-- A walk over the directories among the entries of one. -/
theorem collect_wp {t : FileTree Bytes} (keys : RecordKey → Prop) (nameOf : RecordKey → String)
    {sub : String → List RecordKey → FsProgram (List RecordKey)} :
    ∀ {entries : List (String × Bool)} {out : List RecordKey}, (entries.map Prod.fst).Nodup →
      (∀ name out, (name, true) ∈ entries →
        Wp calm (Collects t out fun key => keys key ∧ nameOf key = name) t (sub name out)) →
      Wp calm (Collects t out fun key =>
          keys key ∧ ∃ entry ∈ entries, entry.2 = true ∧ nameOf key = entry.1) t
        (entries.foldlM (fun out entry => if entry.2 then sub entry.1 out else .done out) out) := by
  intro entries
  induction entries with
  | nil =>
    intro out _ _
    exact ⟨rfl, [], by simp, List.nodup_nil, by simp⟩
  | cons entry entries ih =>
    intro out distinct each
    rw [List.map_cons, List.nodup_cons] at distinct
    rw [List.foldlM_cons]
    have later := fun out' => @ih out' distinct.2
      fun name out mem => each name out (List.mem_cons_of_mem _ mem)
    obtain ⟨name, isDir⟩ := entry
    cases isDir with
    | false =>
      refine (later out).mono ?_
      rintro t' result ⟨same, found, rfl, nodup, mem⟩
      exact ⟨same, found, rfl, nodup, by simpa using mem⟩
    | true =>
      refine (each name out List.mem_cons_self).bind ?_ ?_
      · rintro t' value ⟨rfl, first, value_eq, nodup, mem⟩
        cases value_eq
        refine (later _).mono ?_
        rintro t'' result ⟨same, found, rfl, nodup', mem'⟩
        refine ⟨same, first ++ found, by rw [List.append_assoc], ?_, ?_⟩
        · refine nodup.append nodup' fun key here there => ?_
          obtain ⟨-, entry, listed, -, named⟩ := (mem' key).mp there
          have own := ((mem key).mp here).2
          exact distinct.1 (List.mem_map.mpr ⟨entry, listed, named.symm.trans own⟩)
        · intro key
          rw [List.mem_append, mem, mem']
          constructor
          · rintro (⟨recorded, own⟩ | ⟨recorded, entry, listed, dir, own⟩)
            · exact ⟨recorded, _, List.mem_cons_self, rfl, own⟩
            · exact ⟨recorded, entry, List.mem_cons_of_mem _ listed, dir, own⟩
          · rintro ⟨recorded, entry, listed, dir, own⟩
            rcases List.mem_cons.mp listed with rfl | listed
            · exact .inl ⟨recorded, own⟩
            · exact .inr ⟨recorded, entry, listed, dir, own⟩
      · rintro t' e ⟨-, found, impossible, -⟩
        cases impossible

/-- Listing a directory that is there. -/
theorem readDir_wp {t : FileTree Bytes} (closed : t.Closed) {path : Path}
    (dir : t path = some .dir) {α : Type} {f : List (String × Bool) → FsProgram α}
    {post : FileTree Bytes → Except CoreError α → Prop}
    (each : ∀ entries, t.Lists path entries → Wp calm post t (f entries)) :
    Wp calm post t (send (.readDir path) >>= f) := by
  have resolved := closed.resolve_eq dir
  refine send_wp trivial (fun entries t' listed => ?_) (fun e t' failed => ?_)
  · cases listed with
    | listed _ lists => exact each entries lists
  · cases failed with
    | notDir _ file => rw [resolved] at file; cases file
    | unlisted unresolved => rw [resolved] at unresolved; cases unresolved

variable [RecordJson Bytes] [Blake3]

section Tidy

variable {contents : Set Bytes} {t : FileTree Bytes}

/-- A record lies at its path, and the walk is asked for it. -/
def Asked (t : FileTree Bytes) (under : KeyPrefix) (key : RecordKey) : Prop :=
  t (recordPath key) ≠ none ∧ under.matches key = true

/-- The walk takes a file of a collection for the record it is. -/
theorem listedKey_iff (tidy : Tidy contents t) {under : KeyPrefix} {ns coll name : String}
    {node : Node Bytes} (there : t [ns, coll, name] = some node) {key : RecordKey} :
    listedKey under ns coll name = some key ↔
      recordPath key = [ns, coll, name] ∧ under.matches key = true := by
  have own : ∀ key', Nested key' → recordPath key' = [ns, coll, name] →
      ns = segment key'.ns ∧ coll = segment key'.collection ∧ name = recordFile key' := by
    intro key' nested same
    rw [recordPath_eq, recordDirs_nested nested] at same
    simpa [eq_comm] using same
  have read : ∀ key', Nested key' → recordPath key' = [ns, coll, name] →
      listedKey under ns coll name = if under.matches key' then some key' else none := by
    intro key' nested same
    obtain ⟨rfl, rfl, rfl⟩ := own key' nested same
    simp only [listedKey, stripSuffix_recordFile, decodeSegment_segment]
  have found : ∀ id, stripSuffix name ".json" = some id →
      ∃ key', Nested key' ∧ recordPath key' = [ns, coll, name] := by
    intro id record
    cases node with
    | dir => exact absurd (tidy.dirs _ there).1 (by simp)
    | file bytes =>
      rcases tidy.files _ _ there with ⟨front, own, same, -, other⟩ | ⟨key', nested, same, -⟩ | ⟨-, same⟩
      · have last := (List.append_inj' (show [ns, coll] ++ [name] = _ from same) rfl).2
        rw [← List.singleton_inj.mp last, record] at other
        cases other
      · exact ⟨key', nested, same.symm⟩
      · have short := length_blobPath (ContentHash.of bytes)
        rw [← same] at short
        simp at short
  constructor
  · intro listed
    have record : ∃ id, stripSuffix name ".json" = some id := by
      unfold listedKey at listed
      split at listed
      next => cases listed
      next id record => exact ⟨id, record⟩
    obtain ⟨key', nested, same⟩ := found _ record.choose_spec
    rw [read key' nested same, Option.ite_none_right_eq_some] at listed
    obtain ⟨asked, ⟨⟩⟩ := listed
    exact ⟨same, asked⟩
  · rintro ⟨same, asked⟩
    have nested : Nested key := by
      apply nested_of_length
      rw [← dropLast_recordPath, same]
      rfl
    rw [read key nested same, if_pos asked]

/-- The walk over one collection. -/
theorem collectFiles_wp (hex : ∀ bytes, (ContentHash.of bytes).Hex) (tidy : Tidy contents t)
    (under : KeyPrefix) {ns coll : String} (dir : t [ns, coll] = some .dir) (out : List RecordKey) :
    Wp calm (Collects t out fun key =>
        (Asked t under key ∧ segment key.ns = ns) ∧ segment key.collection = coll) t
      (collectFiles under ns coll out) := by
  refine readDir_wp tidy.closed dir fun entries lists => ?_
  have known : ∀ entry ∈ entries, ∀ key, listedKey under ns coll entry.1 = some key ↔
      recordPath key = [ns, coll, entry.1] ∧ under.matches key = true := by
    intro entry listed key
    obtain ⟨node, there, -⟩ := (lists.2 entry.1 entry.2).mp listed
    exact listedKey_iff tidy there
  refine ⟨rfl, _, rfl, ?_, ?_⟩
  · rw [List.Nodup, List.pairwise_filterMap]
    refine (List.pairwise_map.mp lists.1).imp_of_mem fun {a b} inA inB apart key first key' second => ?_
    rintro rfl
    have same := ((known a inA key).mp first).1.symm.trans ((known b inB key).mp second).1
    simp only [List.cons.injEq, and_true, true_and] at same
    exact apart same
  · intro key
    rw [List.mem_filterMap]
    constructor
    · rintro ⟨entry, listed, same⟩
      obtain ⟨path, asked⟩ := (known entry listed key).mp same
      obtain ⟨node, there, -⟩ := (lists.2 entry.1 entry.2).mp listed
      have nested : Nested key := by
        apply nested_of_length
        rw [← dropLast_recordPath, path]
        rfl
      refine ⟨⟨⟨?_, asked⟩, ?_⟩, ?_⟩
      · rw [path]
        exact (Option.some_ne_none node) ∘ there.symm.trans
      · rw [recordPath_eq, recordDirs_nested nested] at path
        simp_all
      · rw [recordPath_eq, recordDirs_nested nested] at path
        simp_all
    · rintro ⟨⟨⟨there, asked⟩, rfl⟩, rfl⟩
      obtain ⟨node, found⟩ := Option.ne_none_iff_exists'.mp there
      have nested := (tidy.nested hex found).1
      have path : recordPath key = [segment key.ns, segment key.collection, recordFile key] := by
        rw [recordPath_eq, recordDirs_nested nested]
        rfl
      rw [path] at found
      have listed := (lists.2 (recordFile key) _).mpr ⟨node, found, rfl⟩
      exact ⟨_, listed, (known _ listed key).mpr ⟨path, asked⟩⟩

/-- What exists above a record is a directory. -/
theorem dirs_of_recorded (hex : ∀ bytes, (ContentHash.of bytes).Hex) (tidy : Tidy contents t)
    {key : RecordKey} (there : t (recordPath key) ≠ none) :
    t [] = some .dir ∧ t [segment key.ns] = some .dir ∧
      t [segment key.ns, segment key.collection] = some .dir := by
  obtain ⟨node, found⟩ := Option.ne_none_iff_exists'.mp there
  have path : recordPath key = [segment key.ns, segment key.collection] ++ [recordFile key] := by
    rw [recordPath_eq, recordDirs_nested (tidy.nested hex found).1]
  rw [path] at there
  refine ⟨?_, ?_, tidy.closed _ _ there⟩
  · exact @FileTree.Closed.ancestors _ t tidy.closed [] _ (by simp) there
  · exact @FileTree.Closed.ancestors _ t tidy.closed [_] [_, _] (by simp) there

/-- The walk over one namespace. -/
theorem collectNamespace_wp (hex : ∀ bytes, (ContentHash.of bytes).Hex) (tidy : Tidy contents t)
    (under : KeyPrefix) {ns : String} (dir : t [ns] = some .dir) (out : List RecordKey) :
    Wp calm (Collects t out fun key => Asked t under key ∧ segment key.ns = ns) t
      (collectNamespace under ns out) := by
  refine readDir_wp tidy.closed dir fun entries lists => ?_
  have each : ∀ coll out', (coll, true) ∈ entries →
      Wp calm (Collects t out' fun key =>
        (Asked t under key ∧ segment key.ns = ns) ∧ segment key.collection = coll) t
        (collectFiles under ns coll out') := by
    intro coll out' listed
    obtain ⟨node, there, isDir⟩ := (lists.2 coll true).mp listed
    cases node with
    | dir => exact collectFiles_wp hex tidy under there out'
    | file => cases isDir
  refine (collect_wp _ (fun key => segment key.collection) lists.1 each).mono fun t' result walked => ?_
  refine walked.congr fun key => and_iff_left_of_imp ?_
  rintro ⟨⟨there, -⟩, rfl⟩
  have above := (dirs_of_recorded hex tidy there).2.2
  exact ⟨_, (lists.2 (segment key.collection) true).mpr ⟨.dir, above, rfl⟩, rfl, rfl⟩

/-- A listing answers the records that it is asked for, each once. -/
theorem listRaw_wp (hex : ∀ bytes, (ContentHash.of bytes).Hex) (tidy : Tidy contents t)
    (under : KeyPrefix) : Wp calm (Collects t [] (Asked t under)) t (listRaw under) := by
  refine Wp.request_bind_iff.mpr ⟨trivial, fun answer t' listed => ?_⟩
  cases listed with
  | @listed _ entries resolved lists =>
    have each : ∀ ns out', (ns, true) ∈ entries →
        Wp calm (Collects t out' fun key => Asked t under key ∧ segment key.ns = ns) t
          (collectNamespace under ns out') := by
      intro ns out' listed
      obtain ⟨node, there, isDir⟩ := (lists.2 ns true).mp listed
      cases node with
      | dir => exact collectNamespace_wp hex tidy under there out'
      | file => cases isDir
    refine (collect_wp _ (fun key => segment key.ns) lists.1 each).mono fun t' result walked => ?_
    refine walked.congr fun key => and_iff_left_of_imp ?_
    rintro ⟨there, -⟩
    have above := (dirs_of_recorded hex tidy there).2.1
    exact ⟨_, (lists.2 (segment key.ns) true).mpr ⟨.dir, above, rfl⟩, rfl, rfl⟩
  | notDir _ file =>
    -- A file at the root would be a record, a blob or a scratch file.
    rcases tidy.files [] _ (FileTree.resolve_eq_ok file) with ⟨front, name, same, -⟩ | ⟨key, -, same, -⟩ |
      ⟨-, same⟩
    · simp at same
    · exact absurd same.symm (recordPath_ne_nil key)
    · rw [blobPath_eq (hex _)] at same
      cases same
  | unlisted unresolved =>
    obtain rfl := t.resolve_root unresolved
    refine ⟨rfl, [], rfl, List.nodup_nil, fun key => ⟨nofun, ?_⟩⟩
    rintro ⟨there, -⟩
    have root := (dirs_of_recorded hex tidy there).1
    rw [FileTree.resolve_eq_notFound unresolved] at root
    cases root

end Tidy

end Gonzalo.Fs
