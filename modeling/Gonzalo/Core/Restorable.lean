import Gonzalo.Core.Gc
import Gonzalo.Core.Reset

/-!
# The restore window of a deleted manifest

From the deletion of a manifest on, clients of the consumer surface, resets and gc runs go
on at all keys. None of them touches the tombstone, and gc keeps what its body names, so an
undelete always finds both. What it writes goes through `fold_ancestors` of
`gonzalo-core/src/tombstone.rs`: the tombstone is among the ancestors of the restored record
when few enough of the revisions the deleted record listed are newer.
-/

set_option autoImplicit false

namespace Gonzalo.Core
open Gonzalo.Lib

section Window

variable [Blake3] [Serde]

/-- The backend after a call of its store. -/
def Backend.after (w : Backend) (nowMs : Int) (req : StoreReq) : Backend :=
  { w with store := (w.store.serve nowMs req).1 }

/-- What may happen to a backend short of raw writes, purges and collections: consumer calls
at any key, resets, blob uploads, gc runs of any policy, and a change of what `list_blobs`
answers. -/
inductive ConsumerStep (w : Backend) : Backend → Prop
  | call (nowMs : Int) (req : StoreReq) (consumer : req.isConsumer = true) :
      ConsumerStep w (w.after nowMs req)
  | reset {keys : KeyPrefix} {author : Option Identity} {s : MemStore}
      {result : Except CoreError ResetReport}
      (run : Program.Runs MemStore.Served w.store (resetAs keys author) s result) :
      ConsumerStep w { w with store := s }
  | putBlob (content : Bytes) : ConsumerStep w (w.putBlob content)
  | gc {policy : SweepPolicy} {w' : Backend} {result : Except CoreError GcReport}
      (run : GcRun policy w w' result) : ConsumerStep w w'
  | relist (listing : List BlobEntry) : ConsumerStep w { w with listing := listing }

/-- The store holds the tombstone `t`, and the blobs its body names are present. -/
structure Restorable (key : RecordKey) (t : Record) (hashes : List ContentHash) (cap : Nat)
    (w : Backend) : Prop where
  held : w.store.getRaw key = some t
  cap_eq : w.store.cap = cap
  present : ∀ hash ∈ hashes, w.Present hash

/-- A tombstone of a manifest, whose body names `hashes`. -/
structure RetainedManifest (t : Record) (kind : RecordKind) (hashes : List ContentHash) : Prop where
  dead : t.isTombstone = true
  retained : t.deletedKind = some kind
  manifest : kind.isManifest = true
  decoded : referencedBlobs kind t.body = .ok hashes

variable {key : RecordKey} {t : Record} {kind : RecordKind} {hashes : List ContentHash} {cap : Nat}

omit [Blake3] in
/-- The mark phase reaches every blob the retained body names. -/
theorem RetainedManifest.names (retains : RetainedManifest t kind hashes) {hash : ContentHash}
    (member : hash ∈ hashes) : Names t hash := by
  have dead := (isTombstone_iff t).mp retains.dead
  have retained := retains.retained
  have decoded := retains.decoded
  cases kind with
  | graphManifest =>
    cases found : Manifest.fromBody t.body with
    | error e => simp [referencedBlobs, found, Except.map] at decoded
    | ok m =>
      simp only [referencedBlobs, found, Except.map, Except.ok.injEq] at decoded
      obtain ⟨path, entry⟩ := Manifest.mem_blobs.mp (decoded ▸ member)
      exact .graph m path (Or.inr ⟨dead, retained⟩) found entry
  | vectorManifest =>
    cases found : VectorManifest.fromBody t.body with
    | error e => simp [referencedBlobs, found, Except.map] at decoded
    | ok m =>
      simp only [referencedBlobs, found, Except.map, Except.ok.injEq] at decoded
      obtain ⟨shard, entry⟩ := VectorManifest.mem_blobs.mp (decoded ▸ member)
      exact .vector m shard (Or.inr ⟨dead, retained⟩) found entry
  | _ => cases retains.manifest

omit [Serde] in
/-- No consumer call writes over a tombstone that retains a manifest. -/
theorem getRaw_consumer {s : MemStore} {nowMs : Int} {req : StoreReq}
    (consumer : req.isConsumer = true) (dead : t.isTombstone = true)
    (manifest : t.deletedKind.any RecordKind.isManifest = true) (held : s.getRaw key = some t) :
    (s.serve nowMs req).1.getRaw key = some t ∧ (s.serve nowMs req).1.cap = s.cap := by
  cases req with
  | get _ => exact ⟨held, rfl⟩
  | list _ => exact ⟨held, rfl⟩
  | put record expected =>
    rcases s.put_effect nowMs record expected with ⟨r, planned, done⟩ | ⟨same, -⟩
    · rw [MemStore.serve, done, MemStore.getRaw_insert]
      refine ⟨?_, rfl⟩
      obtain ⟨-, ⟨absent, -, rfl⟩ | ⟨_, stored, -, free, -, rfl⟩ | ⟨_, stored, live, -, rfl⟩⟩ :=
        planPut_write planned <;>
      refine (if_neg fun here => ?_).trans held
      · have here : record.key = key := here
        rw [here, held] at absent
        cases absent
      · have here : record.key = key := here
        rw [here, held] at stored
        cases stored
        rw [manifest] at free
        cases free
      · have here : record.key = key := here
        rw [here, held] at stored
        cases stored
        rw [dead] at live
        cases live
    · rw [MemStore.serve, same]
      exact ⟨held, rfl⟩
  | deleteAs key' expected author =>
    rcases s.deleteAs_effect nowMs key' expected author with ⟨c, stored, live, -, done⟩ | same
    · rw [MemStore.serve, done, MemStore.getRaw_insert]
      refine ⟨(if_neg fun here => ?_).trans held, rfl⟩
      have own := MemStore.key_of_getRaw stored
      have here : c.key = key := here
      rw [← own, here, held] at stored
      cases stored
      rw [dead] at live
      cases live
    · rw [MemStore.serve, same]
      exact ⟨held, rfl⟩
  | _ => cases consumer

/-- A step keeps the restore window open. -/
theorem Restorable.step (retains : RetainedManifest t kind hashes) {w w' : Backend}
    (window : Restorable key t hashes cap w) (step : ConsumerStep w w') :
    Restorable key t hashes cap w' := by
  have manifest : t.deletedKind.any RecordKind.isManifest = true := by
    simp [retains.retained, retains.manifest]
  cases step with
  | call nowMs req consumer =>
    obtain ⟨held, same⟩ := getRaw_consumer consumer retains.dead manifest window.held
    exact ⟨held, same.trans window.cap_eq, window.present⟩
  | reset run =>
    have keeps : ∀ (s : MemStore) nowMs req, req.isConsumer = true →
        s.getRaw key = some t ∧ s.cap = cap →
        (s.serve nowMs req).1.getRaw key = some t ∧ (s.serve nowMs req).1.cap = cap := by
      intro s nowMs req consumer kept
      obtain ⟨held, same⟩ := getRaw_consumer consumer retains.dead manifest kept.1
      exact ⟨held, same.trans kept.2⟩
    obtain ⟨held, same⟩ := MemStore.reset_keeps keeps run ⟨window.held, window.cap_eq⟩
    exact ⟨held, same, window.present⟩
  | putBlob content =>
    exact ⟨window.held, window.cap_eq, fun hash member =>
      Backend.present_putBlob (window.present hash member)⟩
  | gc run =>
    obtain ⟨deleted, effect⟩ := gcRun_effect run
    refine ⟨effect.store ▸ window.held, effect.store ▸ window.cap_eq, fun hash member => ?_⟩
    refine (effect.present hash).mpr ⟨window.present hash member, fun gone => ?_⟩
    exact effect.unreferenced hash gone ⟨key, t, window.held, retains.names member⟩
  | relist listing => exact ⟨window.held, window.cap_eq, window.present⟩

theorem Restorable.run (retains : RetainedManifest t kind hashes) {w w' : Backend}
    (window : Restorable key t hashes cap w) (run : Relation.ReflTransGen ConsumerStep w w') :
    Restorable key t hashes cap w' := by
  induction run with
  | refl => exact window
  | tail _ step ih => exact ih.step retains step

/-! ## What an undelete finds and writes -/

variable {nowMs : Int} {author : Option Identity}

/-- A backend that does not fail, at time `nowMs`. -/
def Backend.replyAt (nowMs : Int) (w : Backend) (req : backendInterface.Req) :
    Backend × backendInterface.Ans req := w.reply nowMs req

omit [Serde] in
theorem exec_missingBlobs {w : Backend} (present : ∀ hash ∈ hashes, w.Present hash) :
    (missingBlobs hashes).exec (Backend.replyAt nowMs) w = (w, .ok []) := by
  unfold missingBlobs
  induction hashes with
  | nil => rfl
  | cons hash rest ih =>
    have stored : w.blobs.contains hash = true :=
      Std.ExtTreeMap.contains_iff_mem.mpr (present hash List.mem_cons_self)
    have found : Program.exec (Backend.replyAt nowMs) w (do
        let stored ← callHasBlob hash
        pure (if stored then [] else [] ++ [hash])) = (w, .ok ([] : List ContentHash)) := by
      change (w, Except.ok (if w.blobs.contains hash then [] else [] ++ [hash])) = _
      rw [if_pos stored]
    rw [List.foldlM_cons, Program.exec_bind, found]
    exact ih fun hash' member => present hash' (List.mem_cons_of_mem _ member)

/-- While the window is open an undelete commits the restored record. -/
theorem exec_undelete (nowMs : Int) (author : Option Identity)
    (retains : RetainedManifest t kind hashes) {w : Backend}
    (window : Restorable key t hashes cap w) :
    (undelete key nowMs author).exec (Backend.replyAt nowMs) w =
      (Backend.mk (w.store.insert (rawRecord (some t) (restoredRecord key kind t nowMs author) cap))
          w.blobs w.listing,
        .ok (rawRecord (some t) (restoredRecord key kind t nowMs author) cap).revision) := by
  obtain ⟨held, rfl, present⟩ := window
  have wrote := w.store.putRaw_of_fresh nowMs (restoredRecord key kind t nowMs author)
  have there : w.store.getRaw (restoredRecord key kind t nowMs author).key = some t := held
  rw [there] at wrote
  have reads : Program.exec (Backend.replyAt nowMs) w (callGetRaw key) = (w, .ok (some t)) := by
    change (w, Except.ok (w.store.getRaw key)) = _
    rw [held]
  have writes : Program.exec (Backend.replyAt nowMs) w
      (callPutRaw (restoredRecord key kind t nowMs author) (some t.revision)) =
      (Backend.mk (w.store.insert
          (rawRecord (some t) (restoredRecord key kind t nowMs author) w.store.cap))
          w.blobs w.listing,
        .ok (.committed (restoredRecord key kind t nowMs author).revision)) := by
    change Program.exec (Backend.replyAt nowMs)
      (Backend.mk (w.store.putRaw nowMs (restoredRecord key kind t nowMs author)
        (some t.revision)).1 w.blobs w.listing)
      (Program.ofExcept (w.store.putRaw nowMs (restoredRecord key kind t nowMs author)
        (some t.revision)).2) = _
    rw [Option.map_some] at wrote
    rw [wrote]
    rfl
  unfold undelete
  rw [Program.exec_bind, reads]
  simp only [retains.dead, retains.retained, retains.decoded, Bool.not_true, Program.ofExcept_ok,
    Program.done_bind]
  rw [if_neg Bool.false_ne_true, Program.exec_bind, exec_missingBlobs present]
  simp only [List.isEmpty_nil, Bool.not_true, if_neg Bool.false_ne_true]
  rw [Program.exec_bind, writes]
  rfl

/-! ## What comes back -/

/-- The revision of the tombstone of `c`. -/
def deletedRevision (c : Record) : Revision := ⟨c.revision.counter + 1, tombstoneHash⟩

/-- The revision an undelete gives to what it restores of `c`. -/
def restoredRevision (c : Record) : Revision :=
  ⟨c.revision.counter + 1 + 1, .of c.body.bytes⟩

/-- The revisions `c` lists, its own included, that are newer than its tombstone. -/
def newerListed (c : Record) : Finset Revision :=
  c.lineage.toFinset.filter (deletedRevision c < ·)

/-- Fewer than `cap` listed revisions are newer than the tombstone; the restored revision
itself, where it is among the newest `cap` of them, leaves its place free. -/
def TombstoneFits (c : Record) (cap : Nat) : Prop :=
  (newerListed c).card < cap ∨ restoredRevision c ∈ largest cap (newerListed c)

instance (c : Record) (cap : Nat) : Decidable (TombstoneFits c cap) :=
  inferInstanceAs (Decidable (_ ∨ _))

omit [Serde] in
theorem restoredRevision_ne (c : Record) : deletedRevision c ≠ restoredRevision c := by
  intro same
  have counters : c.revision.counter + 1 = c.revision.counter + 1 + 1 :=
    congrArg Revision.counter same
  grind

omit [Serde] in
/-- A tombstone lists the newest of what its record listed. -/
theorem mem_tombstone_newer {c : Record} {deletedAt : Int} {deleter : Option Identity}
    {r : Revision} (newer : deletedRevision c < r) :
    r ∈ (tombstoneOf c deletedAt cap deleter).lineage ↔ r ∈ largest cap (newerListed c) := by
  have above : (c.lineage.toFinset.filter fun y => y ≠ deletedRevision c ∧ r < y) =
      (newerListed c).filter (r < ·) := by
    ext y
    simp only [newerListed, Finset.mem_filter]
    exact ⟨fun ⟨listed, _, up⟩ => ⟨⟨listed, newer.trans up⟩, up⟩,
      fun ⟨⟨listed, _⟩, up⟩ => ⟨listed, (newer.trans up).ne', up⟩⟩
  have listed : r ∈ (tombstoneOf c deletedAt cap deleter).ancestors ↔ r ∈ c.lineage ∧
      r ≠ deletedRevision c ∧
      (c.lineage.toFinset.filter fun y => y ≠ deletedRevision c ∧ r < y).card < cap :=
    mem_foldAncestors_iff
  have other : r ≠ (tombstoneOf c deletedAt cap deleter).revision := newer.ne'
  rw [Record.lineage, List.mem_cons, or_iff_right other, listed, above, mem_largest,
    newerListed, Finset.mem_filter, List.mem_toFinset]
  exact ⟨fun ⟨inside, _, few⟩ => ⟨⟨inside, newer⟩, few⟩,
    fun ⟨⟨inside, _⟩, few⟩ => ⟨inside, newer.ne', few⟩⟩

omit [Serde] in
/-- When the restored record lists the tombstone. -/
theorem tombstone_mem_restored_iff {c : Record} {deletedAt : Int} {deleter : Option Identity}
    (room : 0 < cap) :
    deletedRevision c ∈ foldAncestors (restoredRevision c) []
      (some (tombstoneOf c deletedAt cap deleter)) cap ↔ TombstoneFits c cap := by
  have counted : ((tombstoneOf c deletedAt cap deleter).lineage.toFinset.filter fun y =>
      y ≠ restoredRevision c ∧ deletedRevision c < y) =
      (largest cap (newerListed c)).erase (restoredRevision c) := by
    ext y
    simp only [Finset.mem_filter, List.mem_toFinset, Finset.mem_erase]
    constructor
    · rintro ⟨listed, other, newer⟩
      exact ⟨other, (mem_tombstone_newer newer).mp listed⟩
    · rintro ⟨other, kept⟩
      have newer : deletedRevision c < y := (Finset.mem_filter.mp (mem_largest.mp kept).1).2
      exact ⟨(mem_tombstone_newer newer).mpr kept, other, newer⟩
  have own : deletedRevision c ∈ (tombstoneOf c deletedAt cap deleter).lineage :=
    List.mem_cons_self
  have fits : ((largest cap (newerListed c)).erase (restoredRevision c)).card < cap ↔
      TombstoneFits c cap := by
    unfold TombstoneFits
    convert card_largest_erase_lt_iff room
  rw [mem_foldAncestors_iff, List.nil_append, Option.elim_some, counted, ← fits]
  exact ⟨fun held => held.2.2, fun few => ⟨own, restoredRevision_ne c, few⟩⟩

/-- The record `r` brings `c` back after its tombstone `t`. -/
structure Recovered (c t r : Record) : Prop where
  body : r.body = c.body
  kind : r.kind = c.kind
  labels : r.metadata.labels = c.metadata.labels
  created : r.metadata.created = c.metadata.created
  counter : r.revision.counter.toNat = c.revision.counter.toNat + 2
  follows : t.revision ∈ r.ancestors

/-- An undelete of the key succeeds and leaves there what brings `c` back. -/
def Undeletes (w : Backend) (key : RecordKey) (nowMs : Int) (author : Option Identity)
    (c t : Record) : Prop :=
  ∃ w' r, (undelete key nowMs author).exec (Backend.replyAt nowMs) w = (w', .ok r.revision) ∧
    w'.store.getRaw key = some r ∧ Recovered c t r

omit [Blake3] [Serde] in
theorem toNat_add_two (n : UInt64) : (n + 1 + 1).toNat = n.toNat + 2 ↔ n.toNat + 2 < 2 ^ 64 := by
  have small := n.toNat_lt
  simp only [UInt64.toNat_add, UInt64.toNat_one]
  omega

omit [Serde] in
/-- The record an undelete writes over the tombstone of `c` brings `c` back but for what the
counter and the ancestors have no room for. -/
theorem recovered_iff {c : Record} (manifest : c.kind.isManifest = true) (deletedAt : Int)
    (deleter : Option Identity) (room : 0 < cap) :
    Recovered c (tombstoneOf c deletedAt cap deleter)
        (rawRecord (some (tombstoneOf c deletedAt cap deleter)) (restoredRecord key c.kind
          (tombstoneOf c deletedAt cap deleter) nowMs author) cap) ↔
      c.revision.counter.toNat + 2 < 2 ^ 64 ∧ TombstoneFits c cap := by
  have body : (tombstoneOf c deletedAt cap deleter).body = c.body := if_pos manifest
  have revision : (restoredRecord key c.kind (tombstoneOf c deletedAt cap deleter) nowMs
      author).revision = restoredRevision c := by
    rw [restoredRecord, body]
    rfl
  rw [← toNat_add_two, ← tombstone_mem_restored_iff room]
  constructor
  · intro back
    refine ⟨back.counter, ?_⟩
    have listed := back.follows
    rw [rawRecord, revision] at listed
    exact listed
  · rintro ⟨counter, listed⟩
    refine ⟨body, rfl, rfl, rfl, counter, ?_⟩
    rw [rawRecord, revision]
    exact listed

omit [Serde] in
/-- What is stored after a live record is deleted. -/
theorem getRaw_deleted {w : Backend} {c : Record} {deletedAt : Int} {expected : Option Revision}
    {deleter : Option Identity} (stored : w.store.getRaw key = some c)
    (live : c.isTombstone = false) (fresh : expected = none ∨ expected = some c.revision) :
    (w.after deletedAt (.deleteAs key expected deleter)).store.getRaw key =
        some (tombstoneOf c deletedAt w.store.cap deleter) ∧
      (w.after deletedAt (.deleteAs key expected deleter)).store.cap = w.store.cap := by
  have planned : planDelete (w.store.getRaw key) expected deletedAt w.store.cap deleter =
      .write (tombstoneOf c deletedAt w.store.cap deleter) := by
    simp [planDelete, stored, live, fresh]
  rw [Backend.after, MemStore.serve, MemStore.deleteAs, planned, MemStore.getRaw_insert]
  exact ⟨if_pos (MemStore.key_of_getRaw stored), rfl⟩

omit [Blake3] [Serde] in
theorem live_of_manifest {c : Record} (manifest : c.kind.isManifest = true) :
    c.isTombstone = false := by
  cases gone : c.isTombstone with
  | false => rfl
  | true => simp [(isTombstone_iff c).mp gone, RecordKind.isManifest] at manifest

/-- The tombstone of a manifest retains it. -/
theorem retainedManifest_tombstoneOf {c : Record} (manifest : c.kind.isManifest = true)
    (decoded : referencedBlobs c.kind c.body = .ok hashes) (deletedAt : Int)
    (deleter : Option Identity) :
    RetainedManifest (tombstoneOf c deletedAt cap deleter) c.kind hashes where
  dead := rfl
  retained := if_pos manifest
  manifest := manifest
  decoded := by
    have body : (tombstoneOf c deletedAt cap deleter).body = c.body := if_pos manifest
    rw [body]
    exact decoded

/-- In an open window an undelete brings the manifest back but for what the counter and the
ancestors have no room for. -/
theorem Restorable.undeletes_iff {c : Record} {deletedAt : Int} {deleter : Option Identity}
    (manifest : c.kind.isManifest = true) (decoded : referencedBlobs c.kind c.body = .ok hashes)
    (room : 0 < cap) {w : Backend}
    (window : Restorable key (tombstoneOf c deletedAt cap deleter) hashes cap w) :
    Undeletes w key nowMs author c (tombstoneOf c deletedAt cap deleter) ↔
      c.revision.counter.toNat + 2 < 2 ^ 64 ∧ TombstoneFits c cap := by
  have undone := exec_undelete nowMs author
    (retainedManifest_tombstoneOf manifest decoded deletedAt deleter) window
  have recovers := @recovered_iff _ key cap nowMs author c manifest deletedAt deleter room
  generalize kept : rawRecord _ _ _ = r at undone recovers
  have own : r.key = key := kept ▸ rfl
  have there : (w.store.insert r).getRaw key = some r := by
    rw [MemStore.getRaw_insert, if_pos own]
  rw [← recovers]
  constructor
  · rintro ⟨_, r', ran, there', back⟩
    obtain ⟨rfl, -⟩ := Prod.mk.inj (undone.symm.trans ran)
    cases there.symm.trans there'
    exact back
  · intro back
    exact ⟨_, r, undone, there, back⟩

/-- A manifest is deleted, and consumers, resets and gc runs go on. Then an undelete brings
it back as it was, two counters on and after its tombstone, exactly when the counter has
room for both and the tombstone fits among the ancestors. -/
theorem deleted_manifest_restorable_iff {w w' : Backend} {c : Record}
    (stored : w.store.getRaw key = some c) (manifest : c.kind.isManifest = true)
    (decoded : referencedBlobs c.kind c.body = .ok hashes)
    (present : ∀ hash ∈ hashes, w.Present hash) {deletedAt : Int} {expected : Option Revision}
    {deleter : Option Identity} (fresh : expected = none ∨ expected = some c.revision)
    (dead : (w.after deletedAt (.deleteAs key expected deleter)).store.getRaw key = some t)
    (run : Relation.ReflTransGen ConsumerStep
      (w.after deletedAt (.deleteAs key expected deleter)) w') :
    Undeletes w' key nowMs author c t ↔
      c.revision.counter.toNat + 2 < 2 ^ 64 ∧ TombstoneFits c w.store.cap := by
  obtain ⟨filed, cap⟩ := @getRaw_deleted _ key w c deletedAt expected deleter stored
    (live_of_manifest manifest) fresh
  cases filed.symm.trans dead
  have retains : RetainedManifest (tombstoneOf c deletedAt w.store.cap deleter) c.kind hashes :=
    retainedManifest_tombstoneOf manifest decoded deletedAt deleter
  have window := Restorable.run retains ⟨dead, cap, present⟩ run
  exact window.undeletes_iff manifest decoded w.store.cap_pos

end Window

/-! ## A manifest that lists a newer revision -/

section Shard

attribute [local instance] sampleBlake3

/-- The blob of the one shard. -/
def shardHash : ContentHash := .of (asBytes "v0")

/-- An index of one shard. -/
def oneShard : VectorManifest :=
  ⟨"bge", 2, 1, (∅ : Std.ExtTreeMap UInt16 ContentHash compare).insert 0 shardHash⟩

/-- What `serde_json` writes of it. -/
def oneShardText : Bytes := asBytes
  ("\x7b\"space\":\"bge\",\"dim\":2,\"shards\":1,\"entries\":\x7b\"0\":\"" ++ shardHash.text ++
    "\"\x7d\x7d")

/-- A reader of that text. -/
abbrev shardSerde : Serde where
  fromSlice _ := none
  toVec _ := none
  manifestFromSlice _ := .error "missing field at line 1 column 1"
  vectorManifestFromSlice bytes :=
    if bytes = oneShardText then .ok oneShard else .error "expected value at line 1 column 1"

attribute [local instance] shardSerde

def indexKey : RecordKey := ⟨"caliban", "vector-manifest", "docs"⟩

/-- The record of the index, which lists these ancestors. -/
def indexRecord (ancestors : List Revision) : Record :=
  { Record.create indexKey .vectorManifest (.inline oneShardText) (.new (.new "ada") "example") with
    ancestors := ancestors }

/-- A backend with the record and the blob, whose ancestor cap is 1. -/
def indexBackend (ancestors : List Revision) : Backend where
  store := (MemStore.empty 1 Nat.one_pos).insert (indexRecord ancestors)
  blobs := (∅ : Std.ExtTreeMap ContentHash Bytes compare).insert shardHash (asBytes "v0")
  listing := []

theorem indexBackend_getRaw (ancestors : List Revision) :
    (indexBackend ancestors).store.getRaw indexKey = some (indexRecord ancestors) := by
  rw [indexBackend, MemStore.getRaw_insert]
  exact if_pos rfl

theorem indexBackend_present (ancestors : List Revision) :
    ∀ hash ∈ oneShard.blobs, (indexBackend ancestors).Present hash := by
  intro hash member
  obtain ⟨shard, entry⟩ := VectorManifest.mem_blobs.mp member
  have only : hash = shardHash := by
    simp only [oneShard, Std.ExtTreeMap.getElem?_insert, Std.ExtTreeMap.getElem?_empty] at entry
    exact (Option.some.inj (Option.ite_none_right_eq_some.mp entry).2).symm
  rw [only, Backend.Present, indexBackend]
  exact Std.ExtTreeMap.mem_insert_self

theorem indexRecord_decoded (ancestors : List Revision) :
    referencedBlobs (indexRecord ancestors).kind (indexRecord ancestors).body =
      .ok oneShard.blobs := by
  have read : Serde.vectorManifestFromSlice oneShardText = .ok oneShard := if_pos rfl
  change ((Serde.vectorManifestFromSlice oneShardText).mapError CoreError.serde).map _ = _
  rw [read]
  rfl

theorem indexBackend_deleted (ancestors : List Revision) :
    ((indexBackend ancestors).after 5 (.deleteAs indexKey none none)).store.getRaw indexKey =
      some (tombstoneOf (indexRecord ancestors) 5 1 none) :=
  (getRaw_deleted (indexBackend_getRaw ancestors) rfl (Or.inl rfl)).1

/-- A revision that the record lists although it is newer: its counter was restarted. -/
def newerRevision : Revision := ⟨9, .of (asBytes "v1")⟩

/-- The restored record does not list its tombstone, which the newer revision pushed out. -/
theorem restarted_manifest_not_restorable :
    ∃ (w : Backend) (c t : Record) (hashes : List ContentHash),
      w.store.getRaw indexKey = some c ∧ c.kind.isManifest = true ∧
      (∃ bytes, c.body = .inline bytes) ∧ referencedBlobs c.kind c.body = .ok hashes ∧
      (∀ hash ∈ hashes, w.Present hash) ∧
      (w.after 5 (.deleteAs indexKey none none)).store.getRaw indexKey = some t ∧
      ¬ Undeletes (w.after 5 (.deleteAs indexKey none none)) indexKey 7 none c t := by
  refine ⟨indexBackend [newerRevision], indexRecord [newerRevision], _, _,
    indexBackend_getRaw _, rfl, ⟨_, rfl⟩, indexRecord_decoded _, indexBackend_present _,
    indexBackend_deleted _, fun undeletes => ?_⟩
  have window : Restorable indexKey (tombstoneOf (indexRecord [newerRevision]) 5 1 none)
      oneShard.blobs 1 ((indexBackend [newerRevision]).after 5 (.deleteAs indexKey none none)) :=
    ⟨indexBackend_deleted _, rfl, indexBackend_present [newerRevision]⟩
  have fits := ((window.undeletes_iff rfl (indexRecord_decoded _) (by decide)).mp undeletes).2
  revert fits
  decide

/-- After a refused re-creation and a second delete, a manifest that lists nothing newer comes
back. -/
theorem fresh_manifest_restorable :
    Undeletes ((((indexBackend []).after 5 (.deleteAs indexKey none none)).after 6
      (.put (indexRecord []) none)).after 6 (.deleteAs indexKey none none)) indexKey 7 none
      (indexRecord []) (tombstoneOf (indexRecord []) 5 1 none) :=
  (deleted_manifest_restorable_iff (indexBackend_getRaw []) rfl (indexRecord_decoded [])
    (indexBackend_present []) (Or.inl rfl) (indexBackend_deleted [])
    (.tail (.single (.call 6 (.put (indexRecord []) none) rfl))
      (.call 6 (.deleteAs indexKey none none) rfl))).mpr ⟨by decide, Or.inl (by decide)⟩

end Shard

end Gonzalo.Core
