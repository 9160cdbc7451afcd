import Gonzalo.Core.Undelete

/-!
# Garbage collection of blobs

`gonzalo-core/src/gc.rs`. The mark phase collects every hash a raw record names;
the sweep deletes the listed blobs outside the mark set that are old enough.
`Names` says what naming is, apart from the order in which the mark phase looks;
`recordBlobs` finds exactly that, or fails on a manifest it cannot decode.
-/

set_option autoImplicit false

namespace Gonzalo.Core
open Gonzalo.Lib

/-- What a GC sweep did. -/
structure GcReport where
  freed : List ContentHash
  retained : Nat
  deferred : Nat
  deriving DecidableEq

/-- When a sweep runs and how old a blob must be, both in nanoseconds. -/
structure SweepPolicy where
  minAge : Nat
  now : Int

section Mark

variable [Serde]

/-- The slices a graph manifest in this body names. -/
def graphBlobs (body : Body) : Except CoreError (List ContentHash) :=
  (Manifest.fromBody body).map Manifest.blobs

/-- The shards a vector manifest in this body names. -/
def vectorBlobs (body : Body) : Except CoreError (List ContentHash) :=
  (VectorManifest.fromBody body).map VectorManifest.blobs

/-- The blobs named by the body a manifest tombstone retains. -/
def retainedBlobs (record : Record) : Except CoreError (List ContentHash) :=
  match record.deletedKind with
  | some .vectorManifest => vectorBlobs record.body
  | some .graphManifest => graphBlobs record.body
  | _ => .ok []

/-- An arm of the mark phase that applies to some kinds only. -/
def blobsIf (applies : Prop) [Decidable applies] (found : Except CoreError (List ContentHash)) :
    Except CoreError (List ContentHash) := if applies then found else .ok []

/-- One turn of the loop of `live_blob_hashes`: the hashes this record needs. -/
def recordBlobs (record : Record) : Except CoreError (List ContentHash) := do
  let body := match record.body with
    | .blob hash _ => [hash]
    | .inline _ => []
  let pinned := record.deletedBlob.toList
  let graph ← blobsIf (record.kind = .graphManifest) (graphBlobs record.body)
  let vector ← blobsIf (record.kind = .vectorManifest) (vectorBlobs record.body)
  let retained ← blobsIf (record.kind = .tombstone) (retainedBlobs record)
  pure (body ++ pinned ++ graph ++ vector ++ retained)

/-- `live_blob_hashes`: the mark set of these records. -/
def liveBlobHashes (records : List Record) : Except CoreError (List ContentHash) :=
  records.foldlM (fun live record => do
    let named ← recordBlobs record
    pure (live ++ named)) []

end Mark

/-- The newest timestamp listed for each hash. -/
def newestStamps (listing : List BlobEntry) : Std.ExtTreeMap ContentHash Int compare :=
  listing.foldl (fun newest entry =>
    newest.alter entry.hash fun
      | some ms => some (max ms entry.modifiedUnixMs)
      | none => some entry.modifiedUnixMs) ∅

/-- The loop of `sweep_blobs_with` that decides which blobs go. -/
def sweepDecide (live : List ContentHash) (policy : SweepPolicy) :
    List (ContentHash × Int) → GcReport → GcReport
  | [], report => report
  | (hash, ms) :: rest, report =>
    if hash ∈ live then
      sweepDecide live policy rest { report with retained := report.retained + 1 }
    else
      match (BlobEntry.mk hash ms).age policy.now with
      | some age =>
        if policy.minAge ≤ age then
          sweepDecide live policy rest { report with freed := report.freed ++ [hash] }
        else sweepDecide live policy rest { report with deferred := report.deferred + 1 }
      | none => sweepDecide live policy rest { report with deferred := report.deferred + 1 }

/-- `sweep_blobs_with`. -/
def sweepBlobsWith (live : List ContentHash) (policy : SweepPolicy) : BackendProgram GcReport := do
  let listing ← callListBlobs
  let report := sweepDecide live policy (newestStamps listing).toList ⟨[], 0, 0⟩
  report.freed.forM callDeleteBlob
  pure report

/-- The loop of `gc_blobs_with` that reads the raw records. -/
def readRecords (keys : List RecordKey) : BackendProgram (List Record) :=
  keys.foldlM (fun records key => do
    match ← callGetRaw key with
    | some record => pure (records ++ [record])
    | none => pure records) []

/-- `gc_blobs_with`. -/
def gcBlobsWith [Serde] (policy : SweepPolicy) : BackendProgram GcReport := do
  let keys ← callListRaw
  let records ← readRecords keys
  let live ← Program.ofExcept (liveBlobHashes records)
  sweepBlobsWith live policy

/-! ## The mark set -/

section Names

variable [Serde]

/-- The record names the blob: as its body, as the blob its tombstone pins, or in a
manifest it holds or retains. -/
inductive Names (r : Record) (hash : ContentHash) : Prop
  | body (len : UInt64) (is : r.body = .blob hash len)
  | pinned (is : r.deletedBlob = some hash)
  | graph (m : Manifest) (path : String)
      (kind : r.kind = .graphManifest ∨ r.kind = .tombstone ∧ r.deletedKind = some .graphManifest)
      (decoded : Manifest.fromBody r.body = .ok m) (entry : m.entries[path]? = some hash)
  | vector (m : VectorManifest) (shard : UInt16)
      (kind : r.kind = .vectorManifest ∨ r.kind = .tombstone ∧ r.deletedKind = some .vectorManifest)
      (decoded : VectorManifest.fromBody r.body = .ok m) (entry : m.entries[shard]? = some hash)

omit [Serde] in
private theorem bind_ok {α β : Type} {x : Except CoreError α} {f : α → Except CoreError β} {b : β}
    (ran : (x >>= f) = .ok b) : ∃ a, x = .ok a ∧ f a = .ok b := by
  cases x with
  | error e => cases ran
  | ok a => exact ⟨a, rfl, ran⟩

/-- The mark phase finds every hash a record names. -/
theorem mem_recordBlobs {r : Record} {hashes : List ContentHash} {hash : ContentHash}
    (marked : recordBlobs r = .ok hashes) (names : Names r hash) : hash ∈ hashes := by
  unfold recordBlobs at marked
  obtain ⟨graph, graphIs, marked⟩ := bind_ok marked
  obtain ⟨vector, vectorIs, marked⟩ := bind_ok marked
  obtain ⟨retained, retainedIs, marked⟩ := bind_ok marked
  cases marked
  simp only [List.mem_append]
  cases names with
  | body len is => simp [is]
  | pinned is => simp [is]
  | graph m path kind decoded entry =>
    have named : hash ∈ m.blobs := Manifest.mem_blobs.mpr ⟨path, entry⟩
    rcases kind with live | ⟨dead, kept⟩
    · simp only [blobsIf, live, if_true, graphBlobs, decoded, Except.map, Except.ok.injEq] at graphIs
      simp [← graphIs, named]
    · simp only [blobsIf, dead, if_true, retainedBlobs, kept, graphBlobs, decoded, Except.map,
        Except.ok.injEq] at retainedIs
      simp [← retainedIs, named]
  | vector m shard kind decoded entry =>
    have named : hash ∈ m.blobs := VectorManifest.mem_blobs.mpr ⟨shard, entry⟩
    rcases kind with live | ⟨dead, kept⟩
    · simp only [blobsIf, live, if_true, vectorBlobs, decoded, Except.map, Except.ok.injEq] at vectorIs
      simp [← vectorIs, named]
    · simp only [blobsIf, dead, if_true, retainedBlobs, kept, vectorBlobs, decoded, Except.map,
        Except.ok.injEq] at retainedIs
      simp [← retainedIs, named]

private theorem liveBlobHashes_acc {records : List Record} {start live : List ContentHash}
    (marked : records.foldlM (fun live record => do
      let named ← recordBlobs record
      pure (live ++ named)) start = Except.ok live) :
    (∀ hash ∈ start, hash ∈ live) ∧
      ∀ r ∈ records, ∃ hashes, recordBlobs r = .ok hashes ∧ ∀ hash ∈ hashes, hash ∈ live := by
  induction records generalizing start with
  | nil =>
    cases marked
    exact ⟨fun _ member => member, by simp⟩
  | cons r rest ih =>
    rw [List.foldlM_cons] at marked
    obtain ⟨next, first, marked⟩ := bind_ok marked
    obtain ⟨hashes, named, first⟩ := bind_ok first
    cases first
    obtain ⟨kept, others⟩ := ih marked
    refine ⟨fun hash member => kept hash (List.mem_append_left _ member), ?_⟩
    rw [List.forall_mem_cons]
    exact ⟨⟨hashes, named, fun hash member => kept hash (List.mem_append_right _ member)⟩, others⟩

/-- The mark set holds every hash any of the records names. -/
theorem mem_liveBlobHashes {records : List Record} {live : List ContentHash} {r : Record}
    {hash : ContentHash} (marked : liveBlobHashes records = .ok live) (member : r ∈ records)
    (names : Names r hash) : hash ∈ live := by
  obtain ⟨hashes, found, kept⟩ := (liveBlobHashes_acc marked).2 r member
  exact kept hash (mem_recordBlobs found names)

/-- One record that cannot be decoded fails the mark phase. -/
theorem liveBlobHashes_error {records : List Record} {r : Record} {e : CoreError}
    (member : r ∈ records) (broken : recordBlobs r = .error e) :
    ∃ e', liveBlobHashes records = .error e' := by
  cases marked : liveBlobHashes records with
  | error e' => exact ⟨e', rfl⟩
  | ok live =>
    obtain ⟨hashes, found, -⟩ := (liveBlobHashes_acc marked).2 r member
    rw [broken] at found
    cases found

end Names

/-! ## The sweep -/

/-- The newest time a listing gives a hash. -/
def NewestStamp (listing : List BlobEntry) (hash : ContentHash) (ms : Int) : Prop :=
  (∃ entry ∈ listing, entry.hash = hash ∧ entry.modifiedUnixMs = ms) ∧
    ∀ entry ∈ listing, entry.hash = hash → entry.modifiedUnixMs ≤ ms

theorem newestStamps_append (listing : List BlobEntry) (entry : BlobEntry) :
    newestStamps (listing ++ [entry]) = (newestStamps listing).alter entry.hash fun
      | some ms => some (max ms entry.modifiedUnixMs)
      | none => some entry.modifiedUnixMs := by
  rw [newestStamps, List.foldl_append]
  rfl

/-- A larger stamp of the same hash, or the first one. -/
theorem NewestStamp.snoc {listing : List BlobEntry} {entry : BlobEntry} {ms : Int}
    (newest : NewestStamp listing entry.hash ms) :
    NewestStamp (listing ++ [entry]) entry.hash (max ms entry.modifiedUnixMs) := by
  obtain ⟨⟨witness, listed, own, stamp⟩, above⟩ := newest
  refine ⟨?_, fun e member same => ?_⟩
  · rcases max_choice ms entry.modifiedUnixMs with left | right
    · exact ⟨witness, List.mem_append_left _ listed, own, stamp.trans left.symm⟩
    · exact ⟨entry, by simp, rfl, right.symm⟩
  · rcases List.mem_append.mp member with earlier | last
    · exact (above e earlier same).trans (le_max_left _ _)
    · rw [List.mem_singleton.mp last]
      exact le_max_right _ _

theorem NewestStamp.other {listing : List BlobEntry} {entry : BlobEntry} {hash : ContentHash}
    {ms : Int} (newest : NewestStamp listing hash ms) (other : entry.hash ≠ hash) :
    NewestStamp (listing ++ [entry]) hash ms := by
  obtain ⟨⟨witness, listed, own, stamp⟩, above⟩ := newest
  refine ⟨⟨witness, List.mem_append_left _ listed, own, stamp⟩, fun e member same => ?_⟩
  rcases List.mem_append.mp member with earlier | last
  · exact above e earlier same
  · exact absurd same (List.mem_singleton.mp last ▸ other)

theorem newestStamps_spec (listing : List BlobEntry) (hash : ContentHash) :
    match (newestStamps listing)[hash]? with
    | some ms => NewestStamp listing hash ms
    | none => ∀ entry ∈ listing, entry.hash ≠ hash := by
  induction listing using List.reverseRecOn with
  | nil => simp [newestStamps]
  | append_singleton rest entry ih =>
    rw [newestStamps_append, Std.ExtTreeMap.getElem?_alter]
    by_cases same : entry.hash = hash
    · subst same
      rw [if_pos (compare_eq_iff_eq.mpr rfl)]
      cases found : (newestStamps rest)[entry.hash]? with
      | none =>
        rw [found] at ih
        refine ⟨⟨entry, by simp, rfl, rfl⟩, fun e member own => ?_⟩
        rcases List.mem_append.mp member with earlier | last
        · exact absurd own (ih e earlier)
        · rw [List.mem_singleton.mp last]
      | some ms =>
        rw [found] at ih
        exact NewestStamp.snoc ih
    · rw [if_neg fun equal => same (compare_eq_iff_eq.mp equal)]
      cases found : (newestStamps rest)[hash]? with
      | none =>
        rw [found] at ih
        intro e member
        rcases List.mem_append.mp member with earlier | last
        · exact ih e earlier
        · rwa [List.mem_singleton.mp last]
      | some ms =>
        rw [found] at ih
        exact ih.other same

/-- The sweep looks at each listed hash once. -/
theorem length_newestStamps (listing : List BlobEntry) :
    (newestStamps listing).toList.length = (listing.map BlobEntry.hash).toFinset.card := by
  rw [← Std.ExtTreeMap.length_keys.trans Std.ExtTreeMap.length_toList.symm,
    ← List.toFinset_card_of_nodup Std.ExtTreeMap.nodup_keys]
  congr 1
  ext hash
  rw [List.mem_toFinset, List.mem_toFinset, Std.ExtTreeMap.mem_keys,
    Std.ExtTreeMap.mem_iff_isSome_getElem?, List.mem_map]
  have spec := newestStamps_spec listing hash
  cases found : (newestStamps listing)[hash]? with
  | none =>
    rw [found] at spec
    simpa using fun entry listed => spec entry listed
  | some ms =>
    rw [found] at spec
    obtain ⟨⟨entry, listed, own, -⟩, -⟩ := spec
    exact ⟨fun _ => ⟨entry, listed, own⟩, fun _ => rfl⟩

/-- A blob the sweep may free: it is not marked, and its newest listed time is at
least `min_age` ago, so not in the future. -/
structure Collectable (live : List ContentHash) (policy : SweepPolicy) (listing : List BlobEntry)
    (hash : ContentHash) : Prop where
  unmarked : hash ∉ live
  aged : ∃ ms, NewestStamp listing hash ms ∧ ms ≤ unixMs policy.now ∧
    (policy.minAge : Int) ≤ (unixMs policy.now - ms) * 1000000

/-- The decision loop frees only what may be freed, and counts every hash once. -/
theorem sweepDecide_spec (live : List ContentHash) (policy : SweepPolicy)
    {listing : List BlobEntry} {stamps : List (ContentHash × Int)} {report : GcReport}
    (newest : ∀ stamp ∈ stamps, NewestStamp listing stamp.1 stamp.2)
    (before : ∀ hash ∈ report.freed, Collectable live policy listing hash) :
    (∀ hash ∈ (sweepDecide live policy stamps report).freed,
        Collectable live policy listing hash) ∧
      (sweepDecide live policy stamps report).freed.length +
          (sweepDecide live policy stamps report).retained +
          (sweepDecide live policy stamps report).deferred =
        report.freed.length + report.retained + report.deferred + stamps.length := by
  induction stamps generalizing report with
  | nil => exact ⟨before, rfl⟩
  | cons stamp rest ih =>
    obtain ⟨hash, ms⟩ := stamp
    have newest' := fun stamp member => newest stamp (List.mem_cons_of_mem _ member)
    have own := newest (hash, ms) List.mem_cons_self
    rw [sweepDecide, List.length_cons]
    by_cases marked : hash ∈ live
    · rw [if_pos marked]
      obtain ⟨freed, count⟩ := @ih { report with retained := report.retained + 1 } newest' before
      dsimp only at count
      exact ⟨freed, by omega⟩
    · rw [if_neg marked]
      have deferred : ∀ {out : GcReport},
          out = sweepDecide live policy rest { report with deferred := report.deferred + 1 } →
          (∀ hash ∈ out.freed, Collectable live policy listing hash) ∧
            out.freed.length + out.retained + out.deferred =
              report.freed.length + report.retained + report.deferred + (rest.length + 1) := by
        rintro out rfl
        obtain ⟨freed, count⟩ := @ih { report with deferred := report.deferred + 1 } newest' before
        dsimp only at count
        exact ⟨freed, by omega⟩
      cases aged : (BlobEntry.mk hash ms).age policy.now with
      | none => exact deferred rfl
      | some age =>
        by_cases old : policy.minAge ≤ age
        · simp only [if_pos old]
          obtain ⟨past, gap⟩ := BlobEntry.age_eq_some aged
          have collectable : Collectable live policy listing hash :=
            ⟨marked, ms, own, past, by rw [← gap]; exact_mod_cast old⟩
          obtain ⟨freed, count⟩ := @ih { report with freed := report.freed ++ [hash] } newest'
            fun h member => by
              rcases List.mem_append.mp member with earlier | last
              · exact before h earlier
              · rw [List.mem_singleton.mp last]
                exact collectable
          simp only [List.length_append, List.length_singleton] at count
          exact ⟨freed, by omega⟩
        · simp only [if_neg old]
          exact deferred rfl

/-! ## A run against a backend -/

section Run

variable [Serde]

/-- Some raw record of the backend names the blob. -/
def Referenced (w : Backend) (hash : ContentHash) : Prop :=
  ∃ key r, w.store.getRaw key = some r ∧ Names r hash

/-- Every raw record's manifest can be decoded. -/
def Decodes (s : MemStore) : Prop :=
  ∀ key r, s.getRaw key = some r → ∃ hashes, recordBlobs r = .ok hashes

/-- What a gc run knows: the store, which stays as it is, the listing it read, and
what it deleted. -/
structure GcView where
  store : MemStore
  listing : List BlobEntry
  deleted : List ContentHash

/-- A blob a gc run may delete. -/
structure Freeable (policy : SweepPolicy) (v : GcView) (hash : ContentHash) : Prop where
  decodes : Decodes v.store
  unnamed : ∀ key r, v.store.getRaw key = some r → ¬ Names r hash
  aged : ∃ ms, NewestStamp v.listing hash ms ∧ ms ≤ unixMs policy.now ∧
    (policy.minAge : Int) ≤ (unixMs policy.now - ms) * 1000000

/-- A gc run reads, lists once, and deletes what it may. -/
def gcContract (policy : SweepPolicy) : Contract backendInterface GcView where
  guard v
    | .store (.listRaw _) | .store (.getRaw _) | .listBlobs => True
    | .deleteBlob hash => Freeable policy v hash
    | _ => False
  turn v req answer v' :=
    match req, answer with
    | .store (.listRaw keys), .ok listed => v' = v ∧ listed = v.store.listRaw keys
    | .store (.getRaw key), .ok found => v' = v ∧ found = v.store.getRaw key
    | .listBlobs, .ok listing => v' = v ∧ listing = v.listing
    | .deleteBlob hash, .ok () => v' = { v with deleted := v.deleted ++ [hash] }
    | .deleteBlob hash, .error _ => v' = v ∨ v' = { v with deleted := v.deleted ++ [hash] }
    | _, _ => v' = v

/-- The end of a gc run: what it reports is what it deleted, and every listed hash is
counted once; a run over a store that does not decode fails and deletes nothing. -/
structure GcDone (v : GcView) (result : Except CoreError GcReport) : Prop where
  reported : ∀ report, result = .ok report → v.deleted = report.freed ∧
    report.freed.length + report.retained + report.deferred =
      (v.listing.map BlobEntry.hash).toFinset.card
  undecoded : ¬ Decodes v.store → v.deleted = [] ∧ ∃ e, result = .error e

theorem gcDone_error {v : GcView} {e : CoreError} (none_deleted : ¬ Decodes v.store → v.deleted = []) :
    GcDone v (.error e) :=
  ⟨fun _ absurd_ => (by cases absurd_), fun broken => ⟨none_deleted broken, e, rfl⟩⟩

variable {policy : SweepPolicy}

theorem wp_callListRaw {post : GcView → Except CoreError (List RecordKey) → Prop} {v : GcView}
    (listed : post v (.ok (v.store.listRaw .all))) (error : ∀ e, post v (.error e)) :
    Wp (gcContract policy) post v callListRaw := by
  refine ⟨trivial, fun answer v' turned => ?_⟩
  cases answer with
  | ok keys =>
    obtain ⟨rfl, rfl⟩ := turned
    exact listed
  | error e =>
    cases turned
    exact error e

theorem wp_callGetRaw {post : GcView → Except CoreError (Option Record) → Prop} {v : GcView}
    {key : RecordKey} (found : post v (.ok (v.store.getRaw key))) (error : ∀ e, post v (.error e)) :
    Wp (gcContract policy) post v (callGetRaw key) := by
  refine ⟨trivial, fun answer v' turned => ?_⟩
  cases answer with
  | ok r =>
    obtain ⟨rfl, rfl⟩ := turned
    exact found
  | error e =>
    cases turned
    exact error e

theorem wp_callListBlobs {post : GcView → Except CoreError (List BlobEntry) → Prop} {v : GcView}
    (listed : post v (.ok v.listing)) (error : ∀ e, post v (.error e)) :
    Wp (gcContract policy) post v callListBlobs := by
  refine ⟨trivial, fun answer v' turned => ?_⟩
  cases answer with
  | ok listing =>
    obtain ⟨rfl, rfl⟩ := turned
    exact listed
  | error e =>
    cases turned
    exact error e

theorem wp_readRecords {v : GcView} {keys : List RecordKey} :
    Wp (gcContract policy) (fun v' result => v' = v ∧ ∀ records, result = .ok records →
      ∀ key ∈ keys, ∀ r, v.store.getRaw key = some r → r ∈ records) v (readRecords keys) := by
  refine Wp.foldlM (fun rest v' acc => v' = v ∧ ∃ done, keys = done ++ rest ∧
    ∀ key ∈ done, ∀ r, v.store.getRaw key = some r → r ∈ acc) ?_ ?_ ?_
  · rintro key rest w acc ⟨rfl, done, rfl, collected⟩
    refine Wp.bind_iff.mpr (wp_callGetRaw ?_ fun e => ⟨rfl, fun _ absurd_ => by cases absurd_⟩)
    simp only [seqPost]
    cases held : w.store.getRaw key with
    | none =>
      refine ⟨rfl, done ++ [key], by simp, fun k member r stored => ?_⟩
      rcases List.mem_append.mp member with earlier | last
      · exact collected k earlier r stored
      · rw [List.mem_singleton.mp last, held] at stored
        cases stored
    | some record =>
      refine ⟨rfl, done ++ [key], by simp, fun k member r stored => ?_⟩
      rcases List.mem_append.mp member with earlier | last
      · exact List.mem_append_left _ (collected k earlier r stored)
      · rw [List.mem_singleton.mp last, held] at stored
        cases stored
        simp
  · rintro _ acc ⟨rfl, done, whole, collected⟩
    refine ⟨rfl, fun records ok key member r stored => ?_⟩
    cases ok
    exact collected key (by simpa [whole] using member) r stored
  · exact ⟨rfl, [], rfl, by simp⟩

/-- The sweep deletes, one by one, blobs it may delete. -/
theorem wp_sweepBlobsWith {v : GcView} {live : List ContentHash} (decodes : Decodes v.store)
    (marked : ∀ key r, v.store.getRaw key = some r → ∀ hash, Names r hash → hash ∈ live)
    (fresh : v.deleted = []) :
    Wp (gcContract policy) (fun v' result => GcDone v' result) v (sweepBlobsWith live policy) := by
  refine Wp.bind_iff.mpr (wp_callListBlobs ?_ fun e => gcDone_error fun _ => fresh)
  simp only [seqPost]
  have newest : ∀ stamp ∈ (newestStamps v.listing).toList,
      NewestStamp v.listing stamp.1 stamp.2 := by
    rintro ⟨hash, ms⟩ member
    have spec := newestStamps_spec v.listing hash
    rw [Std.ExtTreeMap.mem_toList_iff_getElem?_eq_some.mp member] at spec
    exact spec
  obtain ⟨collectable, count⟩ := @sweepDecide_spec live policy v.listing _ ⟨[], 0, 0⟩ newest
    (by simp)
  rw [length_newestStamps] at count
  simp only [List.length_nil, Nat.zero_add] at count
  generalize sweepDecide live policy (newestStamps v.listing).toList ⟨[], 0, 0⟩ = report
    at collectable count ⊢
  have freeable : ∀ hash ∈ report.freed, ∀ deleted,
      Freeable policy { v with deleted := deleted } hash := fun hash member deleted =>
    ⟨decodes, fun key r stored names =>
      (collectable hash member).unmarked (marked key r stored hash names),
      (collectable hash member).aged⟩
  refine Wp.bind_iff.mpr (Wp.forM (fun rest w => ∃ deleted, w = { v with deleted := deleted } ∧
    report.freed = deleted ++ rest) ?_ ?_ ⟨[], by rw [← fresh], rfl⟩)
  · rintro hash rest w ⟨deleted, rfl, split⟩
    refine ⟨freeable hash (by simp [split]) deleted, fun answer w turned => ?_⟩
    cases answer with
    | ok u =>
      cases turned
      exact ⟨deleted ++ [hash], rfl, by simp [split]⟩
    | error e =>
      refine gcDone_error fun broken => ?_
      rcases turned with rfl | rfl <;> exact absurd decodes broken
  · rintro w ⟨deleted, rfl, whole⟩
    refine ⟨fun done ok => ?_, fun broken => absurd decodes broken⟩
    cases ok
    exact ⟨by simpa using whole.symm, count⟩

/-- A whole gc run. -/
theorem wp_gcBlobsWith {v : GcView} (fresh : v.deleted = []) :
    Wp (gcContract policy) (fun v' result => GcDone v' result) v (gcBlobsWith policy) := by
  refine Wp.bind_iff.mpr (wp_callListRaw ?_ fun e => gcDone_error fun _ => fresh)
  refine Wp.bind_iff.mpr (wp_readRecords.mono ?_)
  rintro v' result ⟨rfl, collected⟩
  cases result with
  | error e => exact gcDone_error fun _ => fresh
  | ok records =>
    have all : ∀ key r, v'.store.getRaw key = some r → r ∈ records := fun key r stored =>
      collected records rfl key (MemStore.mem_listRaw.mpr ⟨⟨r, stored⟩, rfl⟩) r stored
    simp only [seqPost]
    refine Wp.ofExcept_bind_iff.mpr ?_
    cases marked : liveBlobHashes records with
    | error e => exact gcDone_error fun _ => fresh
    | ok live =>
      refine wp_sweepBlobsWith (fun key r stored => ?_) (fun key r stored hash names => ?_) fresh
      · cases found : recordBlobs r with
        | ok hashes => exact ⟨hashes, rfl⟩
        | error e =>
          obtain ⟨e', failed⟩ := liveBlobHashes_error (all key r stored) found
          rw [marked] at failed
          cases failed
      · exact mem_liveBlobHashes marked (all key r stored) names

/-! ## Every order of store operations and gc runs -/

/-- A backend in the middle of a gc run that started at `w₀`. -/
structure GcSim (policy : SweepPolicy) (w₀ w : Backend) (v : GcView) : Prop where
  store : w.store = w₀.store ∧ v.store = w₀.store
  listing : w.listing = w₀.listing ∧ v.listing = w₀.listing
  present : ∀ hash, w.Present hash ↔ w₀.Present hash ∧ hash ∉ v.deleted
  deleted : ∀ hash ∈ v.deleted, Freeable policy v hash

variable [Blake3]

omit [Blake3] in
theorem GcSim.delete {w₀ w : Backend} {v : GcView} {hash : ContentHash}
    (sim : GcSim policy w₀ w v) (freeable : Freeable policy v hash) :
    GcSim policy w₀ (w.deleteBlob hash) { v with deleted := v.deleted ++ [hash] } where
  store := sim.store
  listing := sim.listing
  present hash' := by
    rw [Backend.present_deleteBlob, sim.present, List.mem_append, List.mem_singleton, not_or]
    exact ⟨fun ⟨other, was, kept⟩ => ⟨was, kept, Ne.symm other⟩,
      fun ⟨was, kept, other⟩ => ⟨Ne.symm other, was, kept⟩⟩
  deleted hash' member := by
    rcases List.mem_append.mp member with earlier | last
    · have := sim.deleted hash' earlier
      exact ⟨this.decodes, this.unnamed, this.aged⟩
    · rw [List.mem_singleton.mp last]
      exact ⟨freeable.decodes, freeable.unnamed, freeable.aged⟩

theorem gcSim_served {w₀ w w' : Backend} {v : GcView} {req : BackendReq} {answer : req.Ans}
    (sim : GcSim policy w₀ w v) (guarded : (gcContract policy).guard v req)
    (served : Backend.Served w req answer w') :
    ∃ v', (gcContract policy).turn v req answer v' ∧ GcSim policy w₀ w' v' := by
  induction served with
  | store nowMs req =>
    cases req with
    | getRaw key => exact ⟨v, ⟨rfl, by rw [sim.store.2, ← sim.store.1]⟩, sim⟩
    | listRaw keys => exact ⟨v, ⟨rfl, by rw [sim.store.2, ← sim.store.1]⟩, sim⟩
    | _ => exact guarded.elim
  | putBlob content => exact guarded.elim
  | getBlob hash => exact guarded.elim
  | hasBlob hash => exact guarded.elim
  | listBlobs => exact ⟨v, ⟨rfl, by rw [sim.listing.2, ← sim.listing.1]⟩, sim⟩
  | deleteBlob hash => exact ⟨_, rfl, sim.delete guarded⟩
  | failed req e =>
    cases req with
    | store req =>
      cases req with
      | getRaw key => exact ⟨v, rfl, sim⟩
      | listRaw keys => exact ⟨v, rfl, sim⟩
      | _ => exact guarded.elim
    | listBlobs => exact ⟨v, rfl, sim⟩
    | deleteBlob hash => exact ⟨v, Or.inl rfl, sim⟩
    | _ => exact guarded.elim
  | @lost req answer w' served e ih =>
    obtain ⟨v', turned, sim'⟩ := ih guarded
    refine ⟨v', ?_, sim'⟩
    cases req with
    | store req =>
      cases req with
      | getRaw key => cases answer with
        | ok found => exact turned.1
        | error e => exact turned
      | listRaw keys => cases answer with
        | ok listed => exact turned.1
        | error e => exact turned
      | _ => exact guarded.elim
    | listBlobs => cases answer with
      | ok listing => exact turned.1
      | error e => exact turned
    | deleteBlob hash => cases answer with
      | ok u => exact Or.inr turned
      | error e => exact turned
    | _ => exact guarded.elim

/-- A complete gc run. -/
abbrev GcRun (policy : SweepPolicy) (w w' : Backend) (result : Except CoreError GcReport) : Prop :=
  Program.Runs Backend.Served w (gcBlobsWith policy) w' result

/-- What a gc run does: the store stays, and of the blobs only freeable ones go, the
ones a successful run reports; its counts add up to the hashes listed; over a store
that does not decode it fails and deletes nothing. -/
structure GcEffect (policy : SweepPolicy) (w w' : Backend) (result : Except CoreError GcReport)
    (deleted : List ContentHash) : Prop where
  store : w'.store = w.store
  present : ∀ hash, w'.Present hash ↔ w.Present hash ∧ hash ∉ deleted
  unreferenced : ∀ hash ∈ deleted, ¬ Referenced w hash
  aged : ∀ hash ∈ deleted, ∃ ms, NewestStamp w.listing hash ms ∧ ms ≤ unixMs policy.now ∧
    (policy.minAge : Int) ≤ (unixMs policy.now - ms) * 1000000
  reported : ∀ report, result = .ok report → deleted = report.freed ∧
    report.freed.length + report.retained + report.deferred =
      (w.listing.map BlobEntry.hash).toFinset.card
  undecoded : ¬ Decodes w.store → deleted = [] ∧ ∃ e, result = .error e

theorem gcRun_effect {w w' : Backend} {result : Except CoreError GcReport}
    (run : GcRun policy w w' result) : ∃ deleted, GcEffect policy w w' result deleted := by
  have start : GcSim policy w w ⟨w.store, w.listing, []⟩ :=
    ⟨⟨rfl, rfl⟩, ⟨rfl, rfl⟩, by simp, by simp⟩
  obtain ⟨v, sim, done⟩ := run.sound (GcSim policy w)
    (fun _ _ _ _ _ sim guarded served => gcSim_served sim guarded served) start
    (wp_gcBlobsWith rfl)
  refine ⟨v.deleted, sim.store.1, sim.present, fun hash member => ?_, fun hash member => ?_,
    fun report ok => ?_, fun broken => ?_⟩
  · rintro ⟨key, r, stored, names⟩
    exact (sim.deleted hash member).unnamed key r (by rw [sim.store.2]; exact stored) names
  · rw [← sim.listing.2]
    exact (sim.deleted hash member).aged
  · rw [← sim.listing.2]
    exact done.reported report ok
  · exact done.undecoded (by rwa [sim.store.2])

/-- One atomic operation on a backend, or a change of what `list_blobs` answers. -/
inductive BackendStep (w : Backend) : Backend → Prop
  | store (nowMs : Int) (req : StoreReq) :
      BackendStep w { w with store := (w.store.serve nowMs req).1 }
  | putBlob (content : Bytes) : BackendStep w (w.putBlob content)
  | undelete {key : RecordKey} {nowMs : Int} {author : Option Identity} {w' : Backend}
      {result : Except CoreError Revision}
      (run : Program.Runs Backend.Served w (undelete key nowMs author) w' result) :
      BackendStep w w'
  | gc {policy : SweepPolicy} {w' : Backend} {result : Except CoreError GcReport}
      (run : GcRun policy w w' result) : BackendStep w w'
  | relist (listing : List BlobEntry) : BackendStep w { w with listing := listing }

/-- An undelete loses no blob. -/
theorem undelete_present {key : RecordKey} {nowMs : Int} {author : Option Identity}
    {w w' : Backend} {result : Except CoreError Revision}
    (run : Program.Runs Backend.Served w (undelete key nowMs author) w' result)
    {hash : ContentHash} (present : w.Present hash) : w'.Present hash := by
  have served : ∀ (w : Backend) (v : Option Record) (req : BackendReq) (answer : req.Ans)
      (w' : Backend), w.Present hash → (undeleteContract key nowMs author).guard v req →
      Backend.Served w req answer w' →
      (∃ v', (undeleteContract key nowMs author).turn v req answer v') ∧ w'.Present hash := by
    intro w v req answer w' present guarded served
    refine ⟨?_, ?_⟩
    · cases req with
      | store req =>
        cases req with
        | getRaw k => cases answer with
          | ok found => exact ⟨found, rfl⟩
          | error e => exact ⟨v, rfl⟩
        | _ => exact ⟨v, rfl⟩
      | _ => exact ⟨v, rfl⟩
    · induction served with
      | deleteBlob h => exact guarded.elim
      | putBlob content => exact guarded.elim
      | lost served e ih => exact ih guarded
      | _ => exact present
  have ended := run.sound (fun w _ => w.Present hash)
    (fun w v req answer w' present guarded answered =>
      let ⟨⟨v', turned⟩, kept⟩ := served w v req answer w' present guarded answered
      ⟨v', turned, kept⟩) present (wp_undelete (v := none))
  exact ended.elim fun _ done => done.1

/-- One operation keeps every blob that some record names. -/
theorem backendStep_present {w w' : Backend} {hash : ContentHash} (step : BackendStep w w')
    (referenced : Referenced w hash) (present : w.Present hash) : w'.Present hash := by
  cases step with
  | store nowMs req => exact present
  | putBlob content => exact Backend.present_putBlob present
  | undelete run => exact undelete_present run present
  | gc run =>
    obtain ⟨deleted, effect⟩ := gcRun_effect run
    exact (effect.present hash).mpr ⟨present, fun gone => effect.unreferenced hash gone referenced⟩
  | relist listing => exact present

/-- In every sequence of store operations, undeletes, blob uploads and gc runs of any
policy, a blob that is present stays present as long as some raw record names it.
And every gc run deletes only blobs that no raw record names and whose newest
listed time is at least `min_age` ago, counts each listed hash once, and over a
manifest it cannot decode fails and deletes nothing. -/
theorem gc_never_frees_referenced :
    (∀ (hash : ContentHash) (w w' : Backend),
        Relation.ReflTransGen (fun w w' => BackendStep w w' ∧ Referenced w hash) w w' →
        w.Present hash → w'.Present hash) ∧
      ∀ (policy : SweepPolicy) (w w' : Backend) (result : Except CoreError GcReport),
        GcRun policy w w' result → ∃ deleted, GcEffect policy w w' result deleted := by
  refine ⟨fun hash w w' run present => ?_, fun policy w w' result run => gcRun_effect run⟩
  induction run with
  | refl => exact present
  | tail _ step ih => exact backendStep_present step.1 step.2 ih

end Run

end Gonzalo.Core
