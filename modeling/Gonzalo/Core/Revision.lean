import Mathlib

/-!
# Hashes, revisions, keys and identities

`gonzalo-core/src/revision.rs`, `key.rs` and `identity.rs`. A `String` of the
source is a Lean `String`, a `Vec<u8>` a list of bytes, and a `u64` counter a
`UInt64`, so `counter + 1` wraps exactly where the release build's does.
`blake3` is outside the repository and stays a parameter.
-/

set_option autoImplicit false

/-- The order of `u64`, which `Ord` on a revision counter compares by. -/
instance uint64LinearOrder : LinearOrder UInt64 where
  le_refl a := by grind
  le_trans a b c ab bc := by grind
  le_antisymm a b ab ba := by grind
  le_total a b := by grind
  lt_iff_le_not_ge a b := by grind
  toDecidableLE := inferInstance

namespace Gonzalo.Core

/-- `u64::MAX`, the one counter whose successor wraps. -/
def maxCounter : UInt64 := 18446744073709551615

theorem lt_add_one_of_ne_max {n : UInt64} (room : n ≠ maxCounter) : n < n + 1 := by
  unfold maxCounter at room
  grind

theorem lt_max_add_one {n m : UInt64} (roomN : n ≠ maxCounter) (roomM : m ≠ maxCounter) :
    n < max n m + 1 ∧ m < max n m + 1 := by
  unfold maxCounter at roomN roomM
  grind

abbrev Bytes := List UInt8

/-- `str::as_bytes`. -/
def asBytes (s : String) : Bytes := s.toUTF8.data.toList

theorem asBytes_injective : Function.Injective asBytes := by
  intro s t same
  have bytes : s.toByteArray = t.toByteArray := ByteArray.ext (Array.toList_inj.mp same)
  exact String.toByteArray_inj.mp bytes

/-- `blake3::hash(bytes).to_hex()`. -/
class Blake3 where
  hashHex : Bytes → String

/-- The digests of some short bodies. -/
def digests : List (String × String) :=
  [("", "af1349b9f5f9a1a6a0404dea36dcc9499bcb25c9adc112b7cc9a93cae41f3262"),
   ("gonzalo:tombstone:v1", "b90c7f9ba262c46461403ddcc4aa254d6b28dd54b2c95f783fbb9562c754ed65"),
   ("v0", "57f21cd664d3bc0d499bf992ad3ca2f2adf929df01da4d0d7769cc59aac241c3"),
   ("v1", "2a84887509a92ed4c5f4f4acb4aec1232da18970cef84558c77fe0f78336fb82")]

/-- A collision-free hash for concrete runs: the digest of a body listed in `digests`,
and a spelling that is no digest of any other. -/
def sampleHashHex (bytes : Bytes) : String :=
  match digests.find? fun d => asBytes d.1 = bytes with
  | some d => d.2
  | none => String.ofList ('#' :: bytes.map fun b => Char.ofNat b.toNat)

abbrev sampleBlake3 : Blake3 := ⟨sampleHashHex⟩

theorem sampleHashHex_injective : Function.Injective sampleHashHex := by
  have listed : ∀ {bytes : Bytes} {d : String × String},
      digests.find? (fun d => asBytes d.1 = bytes) = some d →
        d ∈ digests ∧ asBytes d.1 = bytes := fun found =>
    ⟨List.mem_of_find?_eq_some found, by simpa using List.find?_some found⟩
  have distinct : ∀ d ∈ digests, ∀ d' ∈ digests, d.2 = d'.2 → d = d' := by decide
  have unspelled : ∀ d ∈ digests, d.2.toList.head? ≠ some '#' := by decide
  intro x y same
  unfold sampleHashHex at same
  split at same <;> split at same
  next d foundX _ d' foundY =>
    rw [← (listed foundX).2, ← (listed foundY).2,
      distinct d (listed foundX).1 d' (listed foundY).1 same]
  next d foundX _ _ => exact absurd (by simp [same]) (unspelled d (listed foundX).1)
  next _ _ d foundY => exact absurd (by simp [← same]) (unspelled d (listed foundY).1)
  next =>
    have spelled := congrArg String.toList same
    simp only [String.toList_ofList, List.cons.injEq, true_and] at spelled
    refine List.map_injective_iff.mpr (fun a b char_eq => ?_) spelled
    have valid : ∀ c : UInt8, (Char.ofNat c.toNat).toNat = c.toNat := fun c => by
      have small : c.toNat < 256 := c.toNat_lt
      rw [Char.ofNat, dif_pos (Or.inl (by omega))]
      rfl
    exact UInt8.toNat_inj.mp (by rw [← valid a, ← valid b, char_eq])

/-- A content hash (blake3, hex-encoded) of a record body. -/
structure ContentHash where
  text : String
  deriving DecidableEq, Repr

instance : LinearOrder ContentHash :=
  LinearOrder.lift' ContentHash.text fun a b same => by cases a; cases b; simp_all

instance : Std.LawfulEqOrd ContentHash := ⟨fun same => compare_eq_iff_eq.mp same⟩

instance : Std.TransOrd ContentHash := inferInstance

/-- `ContentHash::of`. -/
def ContentHash.of [Blake3] (bytes : Bytes) : ContentHash := ⟨Blake3.hashHex bytes⟩

/-- A record revision: a counter plus the body's content hash. -/
structure Revision where
  counter : UInt64
  hash : ContentHash
  deriving DecidableEq, Repr

/-- By counter, then by hash: the order ancestor lists are sorted in. -/
instance : LinearOrder Revision :=
  LinearOrder.lift' (fun r => toLex (r.counter, r.hash)) fun a b same => by
    cases a; cases b; simpa using same

theorem Revision.lt_iff (a b : Revision) :
    a < b ↔ a.counter < b.counter ∨ a.counter = b.counter ∧ a.hash < b.hash :=
  Prod.Lex.toLex_lt_toLex

/-- `Revision::initial`. -/
def Revision.initial [Blake3] (body : Bytes) : Revision := ⟨0, .of body⟩

/-- `Revision::next`. -/
def Revision.next [Blake3] (self : Revision) (body : Bytes) : Revision :=
  ⟨self.counter + 1, .of body⟩

/-- The stable address of a record: `namespace/collection/id`. -/
structure RecordKey where
  ns : String
  collection : String
  id : String
  deriving DecidableEq, Repr

instance : LinearOrder RecordKey :=
  LinearOrder.lift' (fun k => toLex (k.ns, toLex (k.collection, k.id))) fun a b same => by
    cases a; cases b; simp at same; simp_all

instance : Std.LawfulEqOrd RecordKey := ⟨fun same => compare_eq_iff_eq.mp same⟩

instance : Std.TransOrd RecordKey := inferInstance

/-- A prefix used to list records. `none` fields match anything. -/
structure KeyPrefix where
  ns : Option String
  collection : Option String
  deriving DecidableEq, Repr

/-- `KeyPrefix::default()`: every key. -/
def KeyPrefix.all : KeyPrefix := ⟨none, none⟩

/-- `KeyPrefix::matches`. -/
def KeyPrefix.matches (self : KeyPrefix) (key : RecordKey) : Bool :=
  self.ns.all (· == key.ns) && self.collection.all (· == key.collection)

@[simp] theorem KeyPrefix.all_matches (key : RecordKey) : KeyPrefix.all.matches key = true := rfl

/-- Who made a change. -/
structure Identity where
  id : String
  display : Option String
  deriving DecidableEq, Repr

/-- `Identity::new`. -/
def Identity.new (id : String) : Identity := ⟨id, none⟩

/-- The error kinds of `gonzalo_core::CoreError`. -/
inductive CoreError where
  | notFound (key : RecordKey)
  | serde (message : String)
  | invalid (message : String)
  | backend (message : String)
  deriving DecidableEq, Repr

end Gonzalo.Core
