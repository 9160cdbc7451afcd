import Gonzalo.Core.SyncSafety
import Gonzalo.Core.RevisionIdentity

/-!
# Deletions across replicas

Consumers create, update and delete at any store of a fleet while syncs relay
records between them. Every record anywhere, in a store or read by a sync, is
`Sound`: its ancestors lie below it, its hash says whether it is a tombstone, and if
it is live and names a tombstone then somebody re-created the key over one as new.
Every write `Follows` what it replaces, and the history of a key never turns back.

A consumer body that spells the tombstone domain breaks the second clause, and a
counter at its last value the first, so both are kept out of the runs.
-/

set_option autoImplicit false

namespace Gonzalo.Core
open Gonzalo.Lib

section Replicas

variable [Blake3]

/-! ## Records and what may follow them -/

/-- A live record may name a tombstone only if the key was re-created over one at
least as new. -/
def Remembered (recreated : UInt64 → Prop) (x : Revision) : Prop :=
  x.hash = tombstoneHash → ∃ n, recreated n ∧ x.counter ≤ n

structure Sound (recreated : UInt64 → Prop) (r : Record) : Prop where
  below : ∀ x ∈ r.ancestors, x.counter < r.revision.counter
  derived : Derived r
  plain : r.isTombstone = false → r.body.bytes ≠ tombstoneDomain
  remembered : r.isTombstone = false → ∀ x ∈ r.ancestors, Remembered recreated x

/-- `new` may take the place of `old`: it has the same revision, or it is newer and
does not bring a deleted key back on its own. -/
def Follows (recreated : UInt64 → Prop) (old new : Record) : Prop :=
  old.revision = new.revision ∨
    old.revision.counter < new.revision.counter ∧
      (old.isTombstone = true → new.isTombstone = false →
        ∃ n, recreated n ∧ old.revision.counter ≤ n)

/-- The hash meets its preimage at the tombstone domain alone. -/
def DomainSeparated : Prop := ∀ bytes, ContentHash.of bytes = tombstoneHash → bytes = tombstoneDomain

theorem Sound.mono {recreated recreated' : UInt64 → Prop} {r : Record}
    (more : ∀ n, recreated n → recreated' n) (sound : Sound recreated r) : Sound recreated' r where
  below := sound.below
  derived := sound.derived
  plain := sound.plain
  remembered live x member named :=
    let ⟨n, known, le⟩ := sound.remembered live x member named
    ⟨n, more n known, le⟩

variable {recreated : UInt64 → Prop}

theorem Sound.hash_iff (separated : DomainSeparated) {r : Record} (sound : Sound recreated r) :
    r.revision.hash = tombstoneHash ↔ r.isTombstone = true := by
  refine ⟨fun spelled => ?_, sound.derived.dead⟩
  cases dead : r.isTombstone with
  | true => rfl
  | false =>
    exact absurd (separated _ ((sound.derived.live dead).symm.trans spelled)) (sound.plain dead)

/-- What a record over `old` inherits from it is fit to be its ancestors. -/
theorem Follows.inherits (separated : DomainSeparated) {old new : Record}
    (follows : Follows recreated old new) (sound : Sound recreated old) (derived : Derived new)
    (plain : new.isTombstone = false → new.body.bytes ≠ tombstoneDomain) {x : Revision}
    (member : x ∈ old.lineage) (other : x ≠ new.revision) :
    x.counter < new.revision.counter ∧ (new.isTombstone = false → Remembered recreated x) := by
  have newSound : new.revision.hash = tombstoneHash → new.isTombstone = true := fun spelled => by
    cases dead : new.isTombstone with
    | true => rfl
    | false => exact absurd (separated _ ((derived.live dead).symm.trans spelled)) (plain dead)
  rcases follows with same | ⟨newer, recalled⟩
  · rcases List.mem_cons.mp member with rfl | inherited
    · exact absurd same other
    · refine ⟨same ▸ sound.below x inherited, fun live => sound.remembered ?_ x inherited⟩
      cases dead : old.isTombstone with
      | false => rfl
      | true =>
        have := newSound (same ▸ (sound.hash_iff separated).mpr dead)
        rw [live] at this
        cases this
  · have le : x.counter ≤ old.revision.counter := by
      rcases List.mem_cons.mp member with rfl | inherited
      · exact le_rfl
      · exact (sound.below x inherited).le
    refine ⟨lt_of_le_of_lt le newer, fun live spelled => ?_⟩
    cases dead : old.isTombstone with
    | true =>
      obtain ⟨n, known, above⟩ := recalled dead live
      exact ⟨n, known, le.trans above⟩
    | false =>
      rcases List.mem_cons.mp member with rfl | inherited
      · rw [(sound.hash_iff separated).mp spelled] at dead
        cases dead
      · exact sound.remembered dead x inherited spelled

/-- A record whose ancestors are folded from sound ones and from the record it
follows is sound. -/
theorem sound_fold (separated : DomainSeparated) {r w : Record} {current : Option Record}
    {incoming : List Revision} {cap : Nat}
    (folded : w = { r with ancestors := foldAncestors r.revision incoming current cap })
    (derived : Derived r) (plain : r.isTombstone = false → r.body.bytes ≠ tombstoneDomain)
    (supplied : ∀ x ∈ incoming, x ≠ r.revision →
      x.counter < r.revision.counter ∧ (r.isTombstone = false → Remembered recreated x))
    (replaced : ∀ old, current = some old → Sound recreated old ∧ Follows recreated old r) :
    Sound recreated w := by
  have fit : ∀ x ∈ w.ancestors,
      x.counter < r.revision.counter ∧ (r.isTombstone = false → Remembered recreated x) := by
    intro x member
    rw [folded] at member
    obtain ⟨other, listed | ⟨old, rfl, inherited⟩⟩ := mem_foldAncestors member
    · exact supplied x listed other
    · obtain ⟨sound, follows⟩ := replaced old rfl
      exact follows.inherits separated sound derived plain inherited other
  subst folded
  exact ⟨fun x member => (fit x member).1, ⟨derived.live, derived.dead⟩, plain,
    fun live x member => (fit x member).2 live⟩

/-! ## What a call does to one store -/

/-- A store either stays as it is, or files a sound record that follows what it
held at its key. -/
def Advances (recreated : RecordKey → UInt64 → Prop) (s s' : MemStore) : Prop :=
  s' = s ∨ ∃ w, s' = s.insert w ∧ Sound (recreated w.key) w ∧
    ∀ old, s.getRaw w.key = some old → Follows (recreated w.key) old w

/-- Every stored record is sound and its counter can still grow. -/
def SoundStore (recreated : RecordKey → UInt64 → Prop) (s : MemStore) : Prop :=
  ∀ key r, s.getRaw key = some r → Sound (recreated key) r ∧ r.revision.counter ≠ maxCounter

/-- A record as `Record::create` or `Record::update` builds it. -/
def Built (record : Record) : Prop :=
  (∃ key kind body metadata, record = .create key kind body metadata) ∨
    ∃ prev body metadata, record = Record.update prev body metadata

/-- The calls of a consumer: a put of a built record without an expected revision, a
put of an update that expects the revision it updates, deletes and reads. -/
def ConsumerCall : StoreReq → Prop
  | .put record none => Built record
  | .put record (some expected) =>
    ∃ prev body metadata, record = Record.update prev body metadata ∧ expected = prev.revision
  | .putRaw _ _ | .purge _ _ => False
  | _ => True

/-- A put of a body that spells the tombstone domain. -/
def SpellsDomain : StoreReq → Prop
  | .put record _ => record.body.bytes = tombstoneDomain
  | _ => False

theorem Built.ancestors_eq {record : Record} (built : Built record) : record.ancestors = [] := by
  rcases built with ⟨_, _, _, _, rfl⟩ | ⟨_, _, _, rfl⟩ <;> rfl

theorem Built.derived {record : Record} (built : Built record)
    (live : record.isTombstone = false) : Derived record := by
  rcases built with ⟨key, kind, body, metadata, rfl⟩ | ⟨prev, body, metadata, rfl⟩
  · exact derived_create fun gone => by simp [Record.isTombstone, Record.create, gone] at live
  · exact derived_update live

theorem ConsumerCall.built {record : Record} {expected : Option Revision}
    (call : ConsumerCall (.put record expected)) : Built record := by
  cases expected with
  | none => exact call
  | some rev =>
    obtain ⟨prev, body, metadata, rfl, -⟩ := call
    exact Or.inr ⟨prev, body, metadata, rfl⟩

variable {recreated : RecordKey → UInt64 → Prop}

theorem put_advances (separated : DomainSeparated) {s : MemStore} {nowMs : Int} {record : Record}
    {expected : Option Revision} (call : ConsumerCall (.put record expected))
    (plain : record.body.bytes ≠ tombstoneDomain) (sound : SoundStore recreated s)
    (known : ∀ key n, Fleet.Recreates s nowMs (.put record expected) key n → recreated key n) :
    Advances recreated s (s.put nowMs record expected).1 := by
  rcases s.put_effect nowMs record expected with ⟨w, planned, done⟩ | ⟨same, -⟩
  · obtain ⟨live, shape⟩ := planPut_write planned
    have derived := call.built.derived live
    have none_supplied : ∀ {r : Revision} {P : Revision → Prop},
        ∀ x ∈ record.ancestors, x ≠ r → P x := by
      simp [call.built.ancestors_eq]
    refine Or.inr ⟨w, congrArg Prod.fst done, ?_⟩
    rcases shape with ⟨absent, -, rfl⟩ | ⟨t, stored, dead, -, rfl, rfl⟩ | ⟨c, stored, alive, fresh, rfl⟩
    · refine ⟨?_, fun old stored => ?_⟩
      · exact sound_fold separated
          (r := { record with metadata := { record.metadata with created := nowMs, updated := nowMs } })
          rfl ⟨derived.live, derived.dead⟩ (fun _ => plain) none_supplied (by simp)
      · rw [show (createdRecord record nowMs s.cap).key = record.key from rfl, absent] at stored
        cases stored
    · have newer := lt_add_one_of_ne_max (sound _ t stored).2
      have recalled : recreated record.key t.revision.counter := known _ _
        ⟨record, none, t, _, rfl, rfl, stored, dead, rfl, congrArg Prod.snd done⟩
      have follows : Follows (recreated record.key) t (recreatedRecord t record nowMs s.cap) :=
        Or.inr ⟨newer, fun _ _ => ⟨_, recalled, le_rfl⟩⟩
      refine ⟨?_, fun old held => ?_⟩
      · have restamped : Derived (recreatedRecord t record nowMs s.cap) :=
          derived_recreatedRecord live
        refine sound_fold separated
          (r := { recreatedRecord t record nowMs s.cap with ancestors := [] }) rfl
          ⟨restamped.live, restamped.dead⟩ (fun _ => plain) none_supplied fun old held => ?_
        cases held
        exact ⟨(sound _ t stored).1, follows⟩
      · cases stored.symm.trans held
        exact follows
    · obtain ⟨prev, body, metadata, rfl, same⟩ : ∃ prev body metadata,
          record = Record.update prev body metadata ∧ c.revision = prev.revision := by
        subst fresh
        exact call
      have newer : c.revision.counter < prev.revision.counter + 1 :=
        same ▸ lt_add_one_of_ne_max (sound _ c stored).2
      have follows : Follows (recreated (prev.update body metadata).key) c
          (updatedRecord c (prev.update body metadata) nowMs s.cap) :=
        Or.inr ⟨newer, fun gone => by simp [alive] at gone⟩
      refine ⟨?_, fun old held => ?_⟩
      · refine sound_fold separated (r := { prev.update body metadata with
            metadata := { metadata with created := c.metadata.created, updated := nowMs } })
          rfl ⟨derived.live, derived.dead⟩ (fun _ => plain) none_supplied fun old held => ?_
        cases held
        exact ⟨(sound _ c stored).1, follows⟩
      · cases stored.symm.trans held
        exact follows
  · exact Or.inl same

theorem deleteAs_advances (separated : DomainSeparated) {s : MemStore} {nowMs : Int}
    {key : RecordKey} {expected : Option Revision} {author : Option Identity}
    (sound : SoundStore recreated s) :
    Advances recreated s (s.deleteAs nowMs key expected author).1 := by
  rcases s.deleteAs_effect nowMs key expected author with ⟨c, stored, alive, -, done⟩ | same
  · have own := MemStore.key_of_getRaw stored
    subst own
    have newer := lt_add_one_of_ne_max (sound _ c stored).2
    have follows : Follows (recreated c.key) c (tombstoneOf c nowMs s.cap author) :=
      Or.inr ⟨newer, fun gone => by simp [alive] at gone⟩
    refine Or.inr ⟨_, congrArg Prod.fst done, ?_, fun old held => ?_⟩
    · refine sound_fold separated (r := { tombstoneOf c nowMs s.cap author with ancestors := [] })
        rfl ⟨fun live => ?_, fun _ => rfl⟩ (fun live => ?_) (by simp) fun old held => ?_
      · cases live
      · cases live
      · cases held
        exact ⟨(sound _ c stored).1, follows⟩
    · cases stored.symm.trans held
      exact follows
  · exact Or.inl same

/-- Every consumer call advances the store it lands at. -/
theorem consumer_advances (separated : DomainSeparated) {s : MemStore} {nowMs : Int}
    {req : StoreReq} (call : ConsumerCall req) (plain : ¬ SpellsDomain req)
    (sound : SoundStore recreated s)
    (known : ∀ key n, Fleet.Recreates s nowMs req key n → recreated key n) :
    Advances recreated s (s.serve nowMs req).1 := by
  cases req with
  | put record expected => exact put_advances separated call plain sound known
  | deleteAs key expected author => exact deleteAs_advances separated sound
  | putRaw record expected => exact call.elim
  | purge key expected => exact call.elim
  | _ => exact Or.inl rfl

/-! ## What a sync does to one store -/

variable {known : UInt64 → Prop}

/-- Which record holds the old revision does not matter. -/
theorem Follows.congr (separated : DomainSeparated) {old old' new : Record}
    (sound : Sound known old) (sound' : Sound known old') (same : old'.revision = old.revision)
    (follows : Follows known old new) : Follows known old' new := by
  have alike : old'.isTombstone = old.isTombstone := by
    rw [Bool.eq_iff_iff, ← sound.hash_iff separated, ← sound'.hash_iff separated, same]
  rcases follows with equal | ⟨newer, recalled⟩
  · exact Or.inl (same.trans equal)
  · exact Or.inr ⟨same ▸ newer, fun dead live => same ▸ recalled (alike ▸ dead) live⟩

/-- A record that follows two sound ones and carries both chains is sound. -/
theorem sound_reconciled (separated : DomainSeparated) {a b r w : Record} {cap : Nat}
    (folded : w = { r with ancestors := reconciledAncestors r.revision a b cap })
    (derived : Derived r) (plain : r.isTombstone = false → r.body.bytes ≠ tombstoneDomain)
    (soundA : Sound known a) (soundB : Sound known b)
    (followsA : Follows known a r) (followsB : Follows known b r) : Sound known w := by
  refine sound_fold separated folded derived plain (fun x member other => ?_) (by simp)
  rcases List.mem_append.mp member with fromA | fromB
  · exact followsA.inherits separated soundA derived plain fromA other
  · exact followsB.inherits separated soundB derived plain fromB other

/-- The winner of two tombstones follows both. -/
theorem tombstoneWinner_spec (separated : DomainSeparated) {a b : Record} (cap : Nat)
    (soundA : Sound known a) (soundB : Sound known b) (deadA : a.isTombstone = true)
    (deadB : b.isTombstone = true) :
    Sound known (tombstoneWinner a b cap) ∧ Follows known a (tombstoneWinner a b cap) ∧
      Follows known b (tombstoneWinner a b cap) := by
  have hashes : a.revision.hash = b.revision.hash :=
    (soundA.derived.dead deadA).trans (soundB.derived.dead deadB).symm
  have below : ∀ {x y : Record}, x.revision.hash = y.revision.hash → y.isTombstone = true →
      x.revision ≤ y.revision → Follows known x y := by
    intro x y hash dead le
    rcases le.eq_or_lt with equal | lt
    · exact Or.inl equal
    · refine Or.inr ⟨?_, fun _ live => by simp [dead] at live⟩
      rcases (Revision.lt_iff _ _).mp lt with counter | ⟨-, less⟩
      · exact counter
      · exact absurd less (hash ▸ lt_irrefl _)
  unfold tombstoneWinner
  by_cases higher : b.revision ≤ a.revision
  · simp only [if_pos higher]
    have followsB := below hashes.symm deadA higher
    exact ⟨sound_reconciled separated rfl soundA.derived soundA.plain soundA soundB (Or.inl rfl)
      followsB, Or.inl rfl, followsB⟩
  · simp only [if_neg higher]
    have followsA := below hashes deadB (le_of_not_ge higher)
    exact ⟨sound_reconciled separated rfl soundB.derived soundB.plain soundA soundB followsA
      (Or.inl rfl), followsA, Or.inl rfl⟩

variable [Serde]

/-- The domain is no JSON text. -/
def DomainNotJson : Prop := ∀ value bytes, Serde.toVec value = some bytes → bytes ≠ tombstoneDomain

omit [Blake3] [Serde] in
theorem newline_not_mem_domain : newline ∉ tombstoneDomain := by decide

/-- A merge of two live records follows both. -/
theorem buildMerged_spec (separated : DomainSeparated) (notJson : DomainNotJson) {a b : Record}
    {base body : Body} (soundA : Sound known a) (soundB : Sound known b)
    (roomA : a.revision.counter ≠ maxCounter) (roomB : b.revision.counter ≠ maxCounter)
    (liveA : a.isTombstone = false) (liveB : b.isTombstone = false)
    (merged : merge a.kind.mergeClass base a.body b.body = .merged body) :
    Sound known (buildMerged a b body) ∧ Follows known a (buildMerged a b body) ∧
      Follows known b (buildMerged a b body) := by
  obtain ⟨ltA, ltB⟩ := lt_max_add_one roomA roomB
  have followsA : Follows known a (buildMerged a b body) :=
    Or.inr ⟨ltA, fun dead => by simp [liveA] at dead⟩
  have followsB : Follows known b (buildMerged a b body) :=
    Or.inr ⟨ltB, fun dead => by simp [liveB] at dead⟩
  have derived : Derived (buildMerged a b body) := derived_reconciledRecord liveA
  have plain : body.bytes ≠ tombstoneDomain := fun spelled => by
    rcases merge_line newline_not_mem_domain notJson merged spelled with left | right
    · exact soundA.plain liveA left
    · exact soundB.plain liveB right
  exact ⟨sound_reconciled separated (r := { buildMerged a b body with ancestors := [] }) rfl
    ⟨derived.live, derived.dead⟩ (fun _ => plain) soundA soundB followsA followsB, followsA, followsB⟩

/-- A write a sync may issue is sound and follows whatever holds the revision it expects. -/
theorem Justified.follows (separated : DomainSeparated) (notJson : DomainNotJson) {σ : Type}
    {a b dst : σ} {ra rb : Option Record} {rec : Record} {expected : Option Revision}
    (justified : Justified a b ra rb dst rec expected)
    (readA : ∀ x, ra = some x → Sound known x ∧ x.revision.counter ≠ maxCounter)
    (readB : ∀ x, rb = some x → Sound known x ∧ x.revision.counter ≠ maxCounter) :
    Sound known rec ∧ ∀ old, expected = some old.revision → Sound known old →
      Follows known old rec := by
  have forward : ∀ {x : Record} {rev : Revision}, Sound known x → rev ∈ x.ancestors →
      ∀ old, some rev = some old.revision → Sound known old → Follows known old x := by
    intro x rev sound named old same soundOld
    cases same
    refine Or.inr ⟨sound.below _ named, fun dead live => ?_⟩
    exact sound.remembered live _ named ((soundOld.hash_iff separated).mpr dead)
  have reconcile : ∀ {x y z : Record}, Reconciles x y z →
      Sound known x ∧ x.revision.counter ≠ maxCounter →
      Sound known y ∧ y.revision.counter ≠ maxCounter →
      Sound known z ∧ Follows known x z ∧ Follows known y z := by
    rintro x y z (⟨deadX, deadY, rfl⟩ | ⟨liveX, liveY, base, body, merged, rfl⟩) fitX fitY
    · exact tombstoneWinner_spec separated _ fitX.1 fitY.1 deadX deadY
    · exact buildMerged_spec separated notJson fitX.1 fitY.1 fitX.2 fitY.2 liveX liveY merged
  cases justified with
  | copyToB rec => exact ⟨(readA rec rfl).1, fun old absent => by cases absent⟩
  | copyToA rec => exact ⟨(readB rec rfl).1, fun old absent => by cases absent⟩
  | forwardB recA recB ahead =>
    exact ⟨(readA _ rfl).1, forward (readA _ rfl).1 (relate_aAhead ahead).2⟩
  | forwardA recA recB ahead =>
    exact ⟨(readB _ rfl).1, forward (readB _ rfl).1 (relate_bAhead ahead).2⟩
  | reconcileA recA recB rec diverged reconciles =>
    obtain ⟨sound, followsA, -⟩ := reconcile reconciles (readA _ rfl) (readB _ rfl)
    refine ⟨sound, fun old same soundOld => ?_⟩
    exact followsA.congr separated (readA _ rfl).1 soundOld (Option.some_inj.mp same).symm
  | reconcileB recA recB rec diverged reconciles =>
    obtain ⟨sound, -, followsB⟩ := reconcile reconciles (readA _ rfl) (readB _ rfl)
    refine ⟨sound, fun old same soundOld => ?_⟩
    exact followsB.congr separated (readB _ rfl).1 soundOld (Option.some_inj.mp same).symm

omit [Serde] in
/-- A replication write of a sound record that follows what it expects advances the store. -/
theorem putRaw_advances (separated : DomainSeparated) {s : MemStore} {nowMs : Int} {rec : Record}
    {expected : Option Revision} (stored : SoundStore recreated s)
    (sound : Sound (recreated rec.key) rec)
    (follows : ∀ old, expected = some old.revision → Sound (recreated rec.key) old →
      Follows (recreated rec.key) old rec) :
    Advances recreated s (s.putRaw nowMs rec expected).1 := by
  rcases s.putRaw_effect nowMs rec expected with ⟨fresh, done⟩ | ⟨same, -⟩
  · have replaced : ∀ old, s.getRaw rec.key = some old → Sound (recreated rec.key) old ∧
        Follows (recreated rec.key) old rec := by
      intro old held
      have soundOld := (stored _ old held).1
      exact ⟨soundOld, follows old (by rw [fresh, held]; rfl) soundOld⟩
    refine Or.inr ⟨_, congrArg Prod.fst done, ?_, fun old held => (replaced old held).2⟩
    exact sound_fold separated rfl sound.derived sound.plain
      (fun x member _ => ⟨sound.below x member, fun live => sound.remembered live x member⟩) replaced
  · exact Or.inl same

end Replicas

/-! ## Runs of a fleet -/

theorem Advances.stored [Blake3] {recreated : RecordKey → UInt64 → Prop} {s s' : MemStore}
    (advances : Advances recreated s s')
    (sound : ∀ key r, s.getRaw key = some r → Sound (recreated key) r) :
    ∀ key r, s'.getRaw key = some r → Sound (recreated key) r := by
  intro key r held
  rcases advances with rfl | ⟨w, rfl, soundW, -⟩
  · exact sound key r held
  · rw [MemStore.getRaw_insert] at held
    split at held
    next here =>
      cases held
      exact here ▸ soundW
    · exact sound key r held

theorem Advances.getRaw [Blake3] {recreated : RecordKey → UInt64 → Prop} {s s' : MemStore}
    (advances : Advances recreated s s') {key : RecordKey} {old : Record}
    (held : s.getRaw key = some old) :
    ∃ new, s'.getRaw key = some new ∧ Follows (recreated key) old new := by
  rcases advances with rfl | ⟨w, rfl, -, follows⟩
  · exact ⟨old, held, Or.inl rfl⟩
  · rw [MemStore.getRaw_insert]
    by_cases here : w.key = key
    · subst here
      exact ⟨w, if_pos rfl, follows old held⟩
    · exact ⟨old, by rw [if_neg here, held], Or.inl rfl⟩

namespace Fleet

variable {σ ι : Type}

/-- No stored counter is at its last value. -/
def Roomy (w : Fleet σ ι) : Prop :=
  ∀ name key r, w.getRaw name key = some r → r.revision.counter ≠ maxCounter

theorem roomy_of_toList {w : Fleet σ ι}
    (room : ∀ name, ∀ entry ∈ (w.stores name).records.toList,
      entry.2.revision.counter ≠ maxCounter) : w.Roomy := by
  intro name key r held
  exact room name (key, r) (Std.ExtTreeMap.mem_toList_iff_getElem?_eq_some.mpr held)

/-- Every record in a store or read by a sync is sound. -/
structure AllSound [Blake3] (w : Fleet σ ι) : Prop where
  stored : ∀ name key r, w.getRaw name key = some r → Sound (w.recreated key) r
  read : ∀ i name key r, w.seen i name key = some (some r) →
    Sound (w.recreated key) r ∧ r.revision.counter ≠ maxCounter

/-- Every store advances from `w` to `w'`, and the history grows. -/
structure Moves [Blake3] (w w' : Fleet σ ι) : Prop where
  advances : ∀ name, Advances w'.recreated (w.stores name) (w'.stores name)
  grows : ∀ key n, w.recreated key n → w'.recreated key n

variable [DecidableEq σ] [Blake3]

omit [DecidableEq σ] in
theorem Moves.refl (w : Fleet σ ι) : Moves w w := ⟨fun _ => Or.inl rfl, fun _ _ known => known⟩

omit [DecidableEq σ] in
theorem Moves.allSound {w w' : Fleet σ ι} (moves : Moves w w') (sound : w.AllSound)
    (seen : w'.seen = w.seen) : w'.AllSound where
  stored name := (moves.advances name).stored fun key r held =>
    (sound.stored name key r held).mono (moves.grows key)
  read i name key r known := by
    rw [seen] at known
    obtain ⟨fit, room⟩ := sound.read i name key r known
    exact ⟨fit.mono (moves.grows key), room⟩

/-- A call advances every store if it advances the one it lands at. -/
theorem moves_call {w : Fleet σ ι} {name : σ} {s : MemStore}
    {recreated : RecordKey → UInt64 → Prop} (grows : ∀ key n, w.recreated key n → recreated key n)
    (advances : Advances recreated (w.stores name) s) :
    Moves w { w with stores := Function.update w.stores name s, recreated := recreated } where
  advances other := by
    by_cases same : other = name
    · subst same
      simpa using advances
    · exact Or.inl (Function.update_of_ne same _ _)
  grows := grows

theorem moves_consumerCall (separated : DomainSeparated) {w : Fleet σ ι} {name : σ} {nowMs : Int}
    {req : StoreReq} (sound : w.AllSound) (roomy : w.Roomy) (call : ConsumerCall req)
    (plain : ¬ SpellsDomain req) : Moves w (w.consumerCall name nowMs req) := by
  refine moves_call (fun key n known => Or.inl known) (consumer_advances separated call plain ?_
    fun key n recreates => Or.inr recreates)
  exact fun key r held => ⟨(sound.stored name key r held).mono fun n known => Or.inl known,
    roomy name key r held⟩

variable [DecidableEq ι] [Serde]

theorem moves_served (separated : DomainSeparated) (notJson : DomainNotJson) {peers : ι → σ × σ}
    {w w' : Fleet σ ι} {i : ι} {req : SyncReq σ} {answer : req.Ans} (sound : w.AllSound)
    (roomy : w.Roomy) (guarded : syncContract.guard (w.view peers i) req)
    (served : Served w i req answer w') : Moves w w' := by
  have call : ∀ name nowMs (req : StoreReq), syncContract.guard (w.view peers i) (.store name req) →
      Moves w (w.call name nowMs req) := by
    intro name nowMs req guarded
    refine moves_call (fun _ _ known => known) ?_
    cases req with
    | putRaw rec expected =>
      obtain ⟨ra, rb, seenA, seenB, justified⟩ := guarded
      have fit : ∀ side found, w.seen i side rec.key = some found → ∀ x, found = some x →
          Sound (w.recreated rec.key) x ∧ x.revision.counter ≠ maxCounter := by
        rintro side found seen x rfl
        exact sound.read i side rec.key x seen
      obtain ⟨soundRec, follows⟩ := justified.follows separated notJson (fit _ ra seenA)
        (fit _ rb seenB)
      exact putRaw_advances separated
        (fun key r held => ⟨sound.stored name key r held, roomy name key r held⟩) soundRec follows
    | getRaw key => exact Or.inl rfl
    | listRaw keys => exact Or.inl rfl
    | get key => exact guarded.elim
    | list keys => exact guarded.elim
    | put record expected => exact guarded.elim
    | deleteAs key expected author => exact guarded.elim
    | purge key expected => exact guarded.elim
  cases served with
  | read name key => exact ⟨fun _ => Or.inl rfl, fun _ _ known => known⟩
  | call name nowMs req other => exact call name nowMs req guarded
  | failed name req e => exact .refl w
  | lost name nowMs req e => exact call name nowMs req guarded
  | blob hash answer => exact .refl w

theorem served_allSound (separated : DomainSeparated) (notJson : DomainNotJson)
    {peers : ι → σ × σ} {w w' : Fleet σ ι} {i : ι} {req : SyncReq σ} {answer : req.Ans}
    (sound : w.AllSound) (roomy : w.Roomy) (guarded : syncContract.guard (w.view peers i) req)
    (served : Served w i req answer w') : w'.AllSound := by
  have moves := moves_served separated notJson sound roomy guarded served
  cases served with
  | read name key =>
    refine ⟨sound.stored, fun j name' key' r known => ?_⟩
    rcases note_seen known with ⟨rfl, rfl, found⟩ | before
    · exact ⟨sound.stored _ _ r found.symm, roomy _ _ r found.symm⟩
    · exact sound.read j name' key' r before
  | _ => exact moves.allSound sound rfl

/-- The rules of the runs considered: consumers put, delete and read, no body spells
the tombstone domain, and no counter is at its last value. -/
abbrev replicaRules (peers : ι → σ × σ) :
    Rules (syncInterface σ) (Fleet σ ι) ι CoreError SyncReport :=
  rules peers (fun _ req => ConsumerCall req ∧ ¬ SpellsDomain req) Roomy

omit [DecidableEq σ] [DecidableEq ι] [Serde] in
theorem allSound_fresh {cap : σ → Nat} {cap_pos : ∀ name, 0 < cap name} :
    (fresh cap cap_pos : Fleet σ ι).AllSound where
  stored name key r held := by simp [getRaw, fresh] at held
  read i name key r known := by simp [fresh] at known

/-- In every state of every run all records are sound and every sync is covered. -/
theorem allSound_of_run (separated : DomainSeparated) (notJson : DomainNotJson)
    {peers : ι → σ × σ} (distinct : ∀ i, (peers i).1 ≠ (peers i).2) {cap : σ → Nat}
    {cap_pos : ∀ name, 0 < cap name} {c₀ c : FleetPool σ ι} (idle : c₀.Idle)
    (start : c₀.world = fresh cap cap_pos) (run : Pool.Reaches (replicaRules peers) c₀ c) :
    c.world.AllSound ∧ ∀ i p, c.clients i = some p →
      Wp syncContract (fun v _ => v.Pair (peers i).1 (peers i).2) (c.world.view peers i) p := by
  refine covered AllSound distinct ?_ ?_ idle (start ▸ allSound_fresh) run
  · intro w w' i req answer sound roomy guarded served
    exact served_allSound separated notJson sound roomy guarded served
  · intro w name nowMs req sound roomy allowed
    exact (moves_consumerCall separated sound roomy allowed.1 allowed.2).allSound sound rfl

/-- Every step moves the fleet forward. -/
theorem moves_step (separated : DomainSeparated) (notJson : DomainNotJson) {peers : ι → σ × σ}
    {c c' : FleetPool σ ι} (sound : c.world.AllSound)
    (syncs : ∀ i p, c.clients i = some p →
      Wp syncContract (fun v _ => v.Pair (peers i).1 (peers i).2) (c.world.view peers i) p)
    (step : Pool.Step (replicaRules peers) c c') : Moves c.world c'.world := by
  cases step with
  | start i p allowed => exact .refl _
  | serve i req next answer world' at_req roomy served =>
    exact moves_served separated notJson sound roomy (syncs i _ at_req).1 served
  | ambient world' moved =>
    obtain ⟨roomy, name, nowMs, req, allowed, rfl⟩ := moved
    exact moves_consumerCall separated sound roomy allowed.1 allowed.2

end Fleet

/-! ## No resurrection -/

section Resurrection

variable {σ ι : Type} [DecidableEq σ] [DecidableEq ι] [Blake3] [Serde]

omit [DecidableEq ι] in
/-- A sync write that commits never puts an ancestor of the stored record in its place. -/
theorem sync_never_regresses (separated : DomainSeparated) (notJson : DomainNotJson)
    {peers : ι → σ × σ} {w : Fleet σ ι} {i : ι} {name : σ} {rec old : Record}
    {expected : Option Revision} {nowMs : Int} {rev : Revision} (sound : w.AllSound)
    (guarded : syncContract.guard (w.view peers i) (.store name (.putRaw rec expected)))
    (held : w.getRaw name rec.key = some old)
    (commits : ((w.stores name).putRaw nowMs rec expected).2 = .ok (.committed rev)) :
    rec.revision ∉ old.ancestors := by
  obtain ⟨ra, rb, seenA, seenB, justified⟩ := guarded
  have fit : ∀ side found, w.seen i side rec.key = some found → ∀ x, found = some x →
      Sound (w.recreated rec.key) x ∧ x.revision.counter ≠ maxCounter := by
    rintro side found seen x rfl
    exact sound.read i side rec.key x seen
  have follows := (justified.follows separated notJson (fit _ ra seenA) (fit _ rb seenB)).2 old
  have soundOld := sound.stored name _ old held
  intro named
  have below := soundOld.below _ named
  rcases (w.stores name).putRaw_effect nowMs rec expected with ⟨fresh, -⟩ | ⟨-, refused⟩
  · rcases follows (by rw [fresh, show (w.stores name).getRaw rec.key = some old from held]; rfl)
      soundOld with same | ⟨newer, -⟩
    · exact absurd below (same ▸ lt_irrefl _)
    · exact absurd below newer.not_gt
  · exact refused rev commits

/-- From a tombstone on, a store holds records at least as new, and a live one only
once the key was re-created over a tombstone at least as new. -/
theorem buried_stays_buried (separated : DomainSeparated) (notJson : DomainNotJson)
    {peers : ι → σ × σ} (distinct : ∀ i, (peers i).1 ≠ (peers i).2) {cap : σ → Nat}
    {cap_pos : ∀ name, 0 < cap name} {c₀ c c' : FleetPool σ ι} (idle : c₀.Idle)
    (start : c₀.world = .fresh cap cap_pos) (run : Pool.Reaches (Fleet.replicaRules peers) c₀ c)
    (later : Pool.Reaches (Fleet.replicaRules peers) c c') {name : σ} {key : RecordKey} {t : Record}
    (held : c.world.getRaw name key = some t) (dead : t.isTombstone = true) :
    ∃ r, c'.world.getRaw name key = some r ∧ t.revision.counter ≤ r.revision.counter ∧
      (r.isTombstone = false →
        ∃ n, c'.world.recreated key n ∧ t.revision.counter ≤ n) := by
  induction later with
  | refl => exact ⟨t, held, le_rfl, fun live => by simp [dead] at live⟩
  | tail before step ih =>
    obtain ⟨old, heldOld, le, recalled⟩ := ih
    obtain ⟨sound, syncs⟩ :=
      Fleet.allSound_of_run separated notJson distinct idle start (run.trans before)
    have sound' := (Fleet.allSound_of_run separated notJson distinct idle start
      ((run.trans before).tail step)).1
    have moves := Fleet.moves_step separated notJson sound syncs step
    obtain ⟨new, heldNew, follows⟩ := (moves.advances name).getRaw heldOld
    have soundOld := (sound.stored name key old heldOld).mono (moves.grows key)
    have soundNew := sound'.stored name key new heldNew
    refine ⟨new, heldNew, ?_, fun live => ?_⟩
    · rcases follows with same | ⟨newer, -⟩
      · exact same ▸ le
      · exact le.trans newer.le
    · cases deadOld : old.isTombstone with
      | false =>
        obtain ⟨n, known, above⟩ := recalled deadOld
        exact ⟨n, moves.grows key n known, above⟩
      | true =>
        rcases follows with same | ⟨newer, history⟩
        · have spelled := (soundOld.hash_iff separated).mpr deadOld
          rw [same, soundNew.hash_iff separated, live] at spelled
          cases spelled
        · obtain ⟨n, known, above⟩ := history deadOld live
          exact ⟨n, known, le.trans above⟩

/-- Any number of stores, any number of syncs, any order of consumer calls, no body
that spells the tombstone domain and no counter at its last value. In every state a
run reaches: no sync puts an ancestor of the stored record in its place; every step
leaves each stored record with the same revision or a larger counter; and where a
store held a tombstone it later holds a live record only once a consumer re-created
the key over a tombstone at least as new. -/
theorem no_resurrection (separated : DomainSeparated) (notJson : DomainNotJson)
    {peers : ι → σ × σ} (distinct : ∀ i, (peers i).1 ≠ (peers i).2) {cap : σ → Nat}
    {cap_pos : ∀ name, 0 < cap name} {c₀ c : FleetPool σ ι} (idle : c₀.Idle)
    (start : c₀.world = .fresh cap cap_pos) (run : Pool.Reaches (Fleet.replicaRules peers) c₀ c) :
    (∀ i name rec expected next old nowMs rev,
        c.clients i = some (.ask (.store name (.putRaw rec expected)) next) →
        c.world.getRaw name rec.key = some old →
        ((c.world.stores name).putRaw nowMs rec expected).2 = .ok (.committed rev) →
        rec.revision ∉ old.ancestors) ∧
      (∀ c', Pool.Step (Fleet.replicaRules peers) c c' → ∀ name key old,
        c.world.getRaw name key = some old →
        ∃ new, c'.world.getRaw name key = some new ∧
          (new.revision = old.revision ∨ old.revision.counter < new.revision.counter)) ∧
      ∀ c', Pool.Reaches (Fleet.replicaRules peers) c c' → ∀ name key t r,
        c.world.getRaw name key = some t → t.isTombstone = true →
        c'.world.getRaw name key = some r → r.isTombstone = false →
        ∃ n, c'.world.recreated key n ∧ t.revision.counter ≤ n := by
  obtain ⟨sound, syncs⟩ := Fleet.allSound_of_run separated notJson distinct idle start run
  refine ⟨?_, ?_, ?_⟩
  · intro i name rec expected next old nowMs rev pending held commits
    exact sync_never_regresses separated notJson sound (syncs i _ pending).1 held commits
  · intro c' step name key old held
    have moves := Fleet.moves_step separated notJson sound syncs step
    obtain ⟨new, heldNew, same | ⟨newer, -⟩⟩ := (moves.advances name).getRaw held
    · exact ⟨new, heldNew, Or.inl same.symm⟩
    · exact ⟨new, heldNew, Or.inr newer⟩
  · intro c' later name key t r held dead heldLater live
    obtain ⟨r', heldLater', -, recalled⟩ := buried_stays_buried separated notJson distinct idle start
      run later held dead
    cases heldLater.symm.trans heldLater'
    exact recalled live

end Resurrection

/-! ## A tombstone that did not hold -/

section Unburied

attribute [local instance] sampleBlake3 plainSerde

/-- Consumers with the whole of `Record::create`, `Record::update` and `delete_as`. -/
abbrev consumerRules (peers : Unit → Bool × Bool) :
    Rules (syncInterface Bool) (Fleet Bool Unit) Unit CoreError SyncReport :=
  Fleet.rules peers (fun _ req => ConsumerCall req) fun _ => True

def emptyPair : FleetPool Bool Unit where
  world := .fresh (fun _ => 32) fun _ => by decide
  clients _ := none

/-- The topic is created in both stores, deleted in one, and edited twice in the
other, the first time to the text of the tombstone domain. -/
def editedAfterDelete : FleetPool Bool Unit :=
  emptyPair.consumerCalls
    [(false, .put firstTopic none), (true, .put firstTopic none), (false, .deleteAs rustKey none none),
     (true, .put domainTopic (some firstTopic.revision)),
     (true, .put (domainTopic.update (.inline (asBytes "v1")) domainTopic.metadata)
        (some domainTopic.revision))]

theorem reaches_editedAfterDelete :
    Pool.Reaches (consumerRules fun _ => (false, true)) emptyPair editedAfterDelete := by
  refine FleetPool.reaches_consumerCalls _ _ ?_
  simp only [List.forall_mem_cons, ConsumerCall, List.not_mem_nil, false_imp_iff, implies_true]
  exact ⟨Or.inl ⟨_, _, _, _, rfl⟩, Or.inl ⟨_, _, _, _, rfl⟩, trivial, ⟨_, _, _, rfl, rfl⟩,
    ⟨_, _, _, rfl, rfl⟩, trivial⟩

/-- One sync brings the deleted topic back, and nobody re-created it. -/
theorem tombstone_overwritten :
    ∃ t r, emptyPair.Idle ∧
      Pool.Reaches (consumerRules fun _ => (false, true)) emptyPair editedAfterDelete ∧
      Pool.Reaches (consumerRules fun _ => (false, true)) editedAfterDelete
        (editedAfterDelete.syncSteps (fun _ => (false, true)) () 0 5) ∧
      editedAfterDelete.world.getRaw false rustKey = some t ∧ t.isTombstone = true ∧
      (editedAfterDelete.syncSteps (fun _ => (false, true)) () 0 5).world.getRaw false rustKey =
        some r ∧ r.isTombstone = false ∧
      ∀ n, ¬ (editedAfterDelete.syncSteps (fun _ => (false, true)) () 0 5).world.recreated
        rustKey n := by
  refine ⟨_, _, fun _ => rfl, reaches_editedAfterDelete, FleetPool.reaches_syncSteps _ _ _ _ _,
    rfl, rfl, rfl, rfl, ?_⟩
  rintro n (((((no | r) | r) | r) | r) | r)
  · exact no
  all_goals exact Fleet.not_recreates (by decide) r

/-! ## A tombstone that held -/

/-- The topic is created in both stores. -/
def createdTwice : FleetPool Bool Unit :=
  emptyPair.consumerCalls [(false, .put firstTopic none), (true, .put firstTopic none)]

/-- It is deleted in one of them. -/
def deletedOnce : FleetPool Bool Unit :=
  createdTwice.consumerCalls [(false, .deleteAs rustKey none none)]

/-- A sync takes the tombstone to the other store. -/
def buried : FleetPool Bool Unit := deletedOnce.syncSteps (fun _ => (false, true)) () 0 5

/-- A consumer creates the topic again, and a second sync takes that to the other store. -/
def recalled : FleetPool Bool Unit :=
  (buried.consumerCalls [(false, .put firstTopic none)]).syncSteps (fun _ => (false, true)) () 0 5

theorem reaches_deletedOnce :
    Pool.Reaches (Fleet.replicaRules fun _ => (false, true)) emptyPair deletedOnce := by
  have call : ConsumerCall (.put firstTopic none) ∧ ¬ SpellsDomain (.put firstTopic none) := by
    apply And.intro
    · exact Or.inl ⟨_, _, _, _, rfl⟩
    · change firstTopic.body.bytes ≠ tombstoneDomain
      decide
  have created : Pool.Step (Fleet.replicaRules fun _ => (false, true)) emptyPair
      (emptyPair.consumerCalls [(false, .put firstTopic none)]) :=
    FleetPool.step_consumerCall (Fleet.roomy_of_toList (by decide +kernel)) call
  have copied : Pool.Step (Fleet.replicaRules fun _ => (false, true))
      (emptyPair.consumerCalls [(false, .put firstTopic none)]) createdTwice :=
    FleetPool.step_consumerCall (Fleet.roomy_of_toList (by decide +kernel)) call
  have deleted : Pool.Step (Fleet.replicaRules fun _ => (false, true)) createdTwice deletedOnce :=
    FleetPool.step_consumerCall (Fleet.roomy_of_toList (by decide +kernel)) ⟨trivial, id⟩
  exact ((Relation.ReflTransGen.single created).tail copied).tail deleted

theorem reaches_buried {n : Nat} (few : n ≤ 5) :
    Pool.Reaches (Fleet.replicaRules fun _ => (false, true)) deletedOnce
      (deletedOnce.syncSteps (fun _ => (false, true)) () 0 n) := by
  have room : ∀ k < 5, ∀ name, ∀ entry ∈ ((deletedOnce.syncSteps (fun _ => (false, true)) () 0
      k).world.stores name).records.toList, entry.2.revision.counter ≠ maxCounter := by
    decide +kernel
  apply FleetPool.reaches_syncSteps_admitted
  intro k below
  exact Fleet.roomy_of_toList (room k (by omega))

theorem reaches_recalled :
    Pool.Reaches (Fleet.replicaRules fun _ => (false, true)) buried recalled := by
  have room : ∀ k < 5, ∀ name, ∀ entry ∈ (((buried.consumerCalls
      [(false, .put firstTopic none)]).syncSteps (fun _ => (false, true)) () 0
      k).world.stores name).records.toList, entry.2.revision.counter ≠ maxCounter := by
    decide +kernel
  have created : Pool.Step (Fleet.replicaRules fun _ => (false, true)) buried
      (buried.consumerCalls [(false, .put firstTopic none)]) := by
    apply FleetPool.step_consumerCall
    · exact Fleet.roomy_of_toList (by decide +kernel)
    · apply And.intro
      · exact Or.inl ⟨_, _, _, _, rfl⟩
      · change firstTopic.body.bytes ≠ tombstoneDomain
        decide
  refine (Relation.ReflTransGen.single created).trans ?_
  apply FleetPool.reaches_syncSteps_admitted
  intro k below
  exact Fleet.roomy_of_toList (room k below)

/-- The write of the sync puts no ancestor of the live copy in its place, the write moves
the copy forward, and the topic is live again because a consumer created it again. -/
theorem firstTopic_never_regresses :
    ∃ old t r, deletedOnce.world.getRaw true rustKey = some old ∧ old.isTombstone = false ∧
      buried.world.getRaw true rustKey = some t ∧ t.isTombstone = true ∧
      t.revision ∉ old.ancestors ∧
      (t.revision = old.revision ∨ old.revision.counter < t.revision.counter) ∧
      recalled.world.getRaw true rustKey = some r ∧ r.isTombstone = false ∧
      ∃ n, recalled.world.recreated rustKey n ∧ t.revision.counter ≤ n := by
  have separated : DomainSeparated := fun bytes same =>
    sampleHashHex_injective (congrArg ContentHash.text same)
  have notJson : DomainNotJson := fun value bytes written => by cases written
  have here := @no_resurrection Bool Unit _ _ _ _ separated notJson (fun _ => (false, true))
    (fun _ => by decide) (fun _ => 32) (fun _ => by decide) emptyPair
  have writing := here (fun _ => rfl) rfl
    (reaches_deletedOnce.trans (reaches_buried (n := 4) (by decide)))
  have room : (deletedOnce.syncSteps (fun _ => (false, true)) () 0 4).world.Roomy :=
    Fleet.roomy_of_toList (by decide +kernel)
  have reached := here (fun _ => rfl) rfl (reaches_deletedOnce.trans (reaches_buried le_rfl))
  refine ⟨_, _, _, rfl, rfl, rfl, rfl, ?_, ?_, rfl, rfl, ?_⟩
  · exact writing.1 () true _ _ _ _ 0 _ rfl rfl rfl
  · have written := writing.2.1 _
      (.serve () _ _ _ _ rfl room (Fleet.serveAt_served () 0 _ _)) true rustKey _ rfl
    obtain ⟨new, held, moved⟩ := written
    cases held
    exact moved
  · exact reached.2.2 _ reaches_recalled true rustKey _ _ rfl rfl rfl rfl

end Unburied

end Gonzalo.Core
