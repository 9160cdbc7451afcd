import Gonzalo.Core.Sync

/-!
# What an equal revision says

Sync, pull and the planners skip work when two revisions are equal. The hash of a
revision covers only the bytes a body yields, or the tombstone domain, so two
preimages meet in two places: a live body that spells the domain, and two bodies of
different shape that yield the same bytes (a blob reference yields its hash text).
-/

set_option autoImplicit false

namespace Gonzalo.Core

section Identity

variable [Blake3]

/-- The revision hash is the one the crate derives: of the body's bytes for a live
record, of the tombstone domain for a deletion. -/
structure Derived (r : Record) : Prop where
  live : r.isTombstone = false → r.revision.hash = .of r.body.bytes
  dead : r.isTombstone = true → r.revision.hash = tombstoneHash

/-! ## Every builder derives it -/

theorem derived_create {key : RecordKey} {kind : RecordKind} {body : Body} {metadata : Meta}
    (live : kind ≠ .tombstone) : Derived (.create key kind body metadata) where
  live _ := rfl
  dead gone := absurd ((isTombstone_iff _).mp gone) live

theorem derived_update {r : Record} {body : Body} {metadata : Meta}
    (live : r.isTombstone = false) : Derived (r.update body metadata) where
  live _ := rfl
  dead gone := by
    rw [show (r.update body metadata).isTombstone = r.isTombstone from rfl, live] at gone
    cases gone

theorem derived_tombstoneOf (c : Record) (nowMs : Int) (cap : Nat) (author : Option Identity) :
    Derived (tombstoneOf c nowMs cap author) where
  live alive := by cases alive
  dead _ := rfl

theorem derived_recreatedRecord {t record : Record} {nowMs : Int} {cap : Nat}
    (live : record.isTombstone = false) : Derived (recreatedRecord t record nowMs cap) where
  live _ := rfl
  dead gone := by
    rw [show (recreatedRecord t record nowMs cap).isTombstone = record.isTombstone from rfl,
      live] at gone
    cases gone

theorem derived_reconciledRecord {a b : Record} {body : Body} {author : Identity}
    {originSystem : String} {cap : Nat} (live : a.isTombstone = false) :
    Derived (reconciledRecord a b body author originSystem cap) where
  live _ := rfl
  dead gone := by
    rw [show (reconciledRecord a b body author originSystem cap).isTombstone = a.isTombstone
      from rfl, live] at gone
    cases gone

/-! ## When equal revisions mean equal content -/

/-- Two different bodies that yield the same bytes: a blob reference and the text of
its hash, or two references to one blob that disagree about its length. -/
def Body.Confusable : Body → Body → Prop
  | .inline bytes, .blob hash _ => bytes = asBytes hash.text
  | .blob hash _, .inline bytes => bytes = asBytes hash.text
  | .blob hash len, .blob hash' len' => hash = hash' ∧ len ≠ len'
  | .inline _, .inline _ => False

omit [Blake3] in
theorem Body.confusable_iff (x y : Body) : x.Confusable y ↔ x.bytes = y.bytes ∧ x ≠ y := by
  cases x with
  | inline bytes =>
    cases y with
    | inline bytes' => simp [Body.Confusable, Body.bytes]
    | blob hash' len' => simp [Body.Confusable, Body.bytes]
  | blob hash len =>
    cases y with
    | inline bytes' => simp [Body.Confusable, Body.bytes, eq_comm]
    | blob hash' len' =>
      have texts : asBytes hash.text = asBytes hash'.text ↔ hash = hash' :=
        ⟨fun same => by
          cases hash
          cases hash'
          exact congrArg _ (asBytes_injective same), fun same => same ▸ rfl⟩
      simp only [Body.Confusable, Body.bytes, texts, ne_eq, Body.blob.injEq, not_and]
      exact and_congr_right fun same => by simp [same]

/-- Two records whose hash preimages meet: a deletion and a live body that spells
the tombstone domain, or two live records with confusable bodies. -/
def Record.Confusable (a b : Record) : Prop :=
  match a.isTombstone, b.isTombstone with
  | true, true => False
  | true, false => b.body.bytes = tombstoneDomain
  | false, true => a.body.bytes = tombstoneDomain
  | false, false => a.body.Confusable b.body

/-- The verdict a reader of equal revisions relies on. -/
def SameContent (a b : Record) : Prop :=
  a.isTombstone = b.isTombstone ∧ (a.isTombstone = false → a.body = b.body)

theorem sameContent_iff (inj : Function.Injective Blake3.hashHex) {a b : Record}
    (derivedA : Derived a) (derivedB : Derived b) (same : a.revision.hash = b.revision.hash) :
    SameContent a b ↔ ¬ a.Confusable b := by
  have preimage : ∀ {x y : Bytes}, ContentHash.of x = ContentHash.of y → x = y := fun equal =>
    inj (congrArg ContentHash.text equal)
  unfold SameContent Record.Confusable
  cases deadA : a.isTombstone with
  | true =>
    cases deadB : b.isTombstone with
    | true => simp
    | false =>
      have spelled : tombstoneDomain = b.body.bytes :=
        preimage ((derivedA.dead deadA).symm.trans (same.trans (derivedB.live deadB)))
      simp [spelled]
  | false =>
    cases deadB : b.isTombstone with
    | true =>
      have spelled : a.body.bytes = tombstoneDomain :=
        preimage ((derivedA.live deadA).symm.trans (same.trans (derivedB.dead deadB)))
      simp [spelled]
    | false =>
      have bytes : a.body.bytes = b.body.bytes :=
        preimage ((derivedA.live deadA).symm.trans (same.trans (derivedB.live deadB)))
      simp [Body.confusable_iff, bytes]

/-- Confusable records hash alike, whatever the hash. -/
theorem hash_eq_of_confusable {a b : Record} (derivedA : Derived a) (derivedB : Derived b)
    (confusable : a.Confusable b) : a.revision.hash = b.revision.hash := by
  unfold Record.Confusable at confusable
  cases deadA : a.isTombstone with
  | true =>
    cases deadB : b.isTombstone with
    | true => simp [deadA, deadB] at confusable
    | false =>
      simp only [deadA, deadB] at confusable
      rw [derivedA.dead deadA, derivedB.live deadB, confusable, tombstoneHash]
  | false =>
    cases deadB : b.isTombstone with
    | true =>
      simp only [deadA, deadB] at confusable
      rw [derivedA.live deadA, derivedB.dead deadB, confusable, tombstoneHash]
    | false =>
      simp only [deadA, deadB] at confusable
      rw [derivedA.live deadA, derivedB.live deadB, (Body.confusable_iff _ _).mp confusable |>.1]

/-- Equal revisions, and a sync's answer that two records are in sync, mean equal
content exactly for the pairs that are not confusable at one counter. -/
theorem equal_revision_sound_iff (inj : Function.Injective Blake3.hashHex) {a b : Record}
    (derivedA : Derived a) (derivedB : Derived b) :
    ((a.revision = b.revision → SameContent a b) ∧ (relate a b = .inSync → SameContent a b)) ↔
      ¬ (a.revision.counter = b.revision.counter ∧ a.Confusable b) := by
  rw [relate_inSync, and_self]
  constructor
  · rintro sound ⟨counter, confusable⟩
    have hash := hash_eq_of_confusable derivedA derivedB confusable
    have same : a.revision = b.revision := by
      cases revA : a.revision
      cases revB : b.revision
      simp_all
    exact (sameContent_iff inj derivedA derivedB hash).mp (sound same) confusable
  · intro apart same
    refine (sameContent_iff inj derivedA derivedB (congrArg Revision.hash same)).mpr ?_
    exact fun confusable => apart ⟨congrArg Revision.counter same, confusable⟩

end Identity

/-! ## A live record that spells the domain -/

section Collision

attribute [local instance] sampleBlake3

/-- The first version of a topic. -/
def firstTopic : Record :=
  .create rustKey .topic (.inline (asBytes "v0")) (.new (.new "ada") "example")

/-- A deletion of the topic. -/
def deletedTopic : Record := tombstoneOf firstTopic 0 defaultAncestorCap none

/-- An edit of the topic to the text of the tombstone domain. -/
def domainTopic : Record :=
  firstTopic.update (.inline (asBytes "gonzalo:tombstone:v1")) (.new (.new "ada") "example")

/-- A topic whose body is the reference to a blob, and one that spells its hash. -/
def blobTopic : Record :=
  .create rustKey .topic (.blob (.of (asBytes "v0")) 2) (.new (.new "ada") "example")

def spelledTopic : Record :=
  .create rustKey .topic (.inline (asBytes (ContentHash.of (asBytes "v0")).text))
    (.new (.new "ada") "example")

/-- A deletion and an edit, and a blob and an inline body, built as clients build
them, carry equal revisions, and a sync takes each pair to be in sync. -/
theorem equal_revision_unsound :
    Function.Injective Blake3.hashHex ∧
      (Derived deletedTopic ∧ Derived domainTopic ∧
        deletedTopic.revision = domainTopic.revision ∧
        relate deletedTopic domainTopic = .inSync ∧
        deletedTopic.isTombstone = true ∧ domainTopic.isTombstone = false) ∧
      (Derived blobTopic ∧ Derived spelledTopic ∧ blobTopic.revision = spelledTopic.revision ∧
        relate blobTopic spelledTopic = .inSync ∧ blobTopic.isTombstone = false ∧
        spelledTopic.isTombstone = false ∧ blobTopic.body ≠ spelledTopic.body) :=
  ⟨sampleHashHex_injective,
    ⟨derived_tombstoneOf _ _ _ _, derived_update rfl, rfl, by decide, rfl, rfl⟩,
    ⟨derived_create (by decide), derived_create (by decide), rfl, by decide, rfl, rfl, by decide⟩⟩

/-- Two deletions of the topic by different people are not confusable. -/
theorem deletions_sameContent :
    (deletedTopic.revision = (tombstoneOf firstTopic 5 1 (some (.new "bob"))).revision →
        SameContent deletedTopic (tombstoneOf firstTopic 5 1 (some (.new "bob")))) ∧
      (relate deletedTopic (tombstoneOf firstTopic 5 1 (some (.new "bob"))) = .inSync →
        SameContent deletedTopic (tombstoneOf firstTopic 5 1 (some (.new "bob")))) :=
  (equal_revision_sound_iff sampleHashHex_injective (derived_tombstoneOf firstTopic 0 _ none)
    (derived_tombstoneOf firstTopic 5 1 (some (.new "bob")))).mpr fun meet => meet.2

end Collision

end Gonzalo.Core
