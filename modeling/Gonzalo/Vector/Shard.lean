import Gonzalo.Core.Backend
import Gonzalo.Lib.Wire

/-!
# Shards of a vector index

`gonzalo-vector/src/shard.rs`: which shard a key belongs to, and the bytes of a shard. A
vector is the list of its components' bits. The lengths of an id, of a vector and of a
shard are written in 32 bits, whatever they are.
-/

set_option autoImplicit false

namespace Gonzalo.Vector
open Gonzalo.Core Gonzalo.Lib

/-- `Vec<f32>`, as `to_le_bytes` sees it. -/
abbrev Components : Type := List UInt32

abbrev Entry : Type := RecordKey × Components

/-- The value of a lower-case hex digit. Of another character, which blake3's hex has
none of, it is zero. -/
def hexDigit (c : Char) : Nat :=
  if '0' ≤ c ∧ c ≤ '9' then c.toNat - '0'.toNat
  else if 'a' ≤ c ∧ c ≤ 'f' then c.toNat - 'a'.toNat + 10
  else 0

/-- `u16::from_str_radix(&hex[..4], 16)`. -/
def hexBits (hex : String) : UInt16 :=
  .ofNat ((hex.toList.take 4).foldl (fun acc c => 16 * acc + hexDigit c) 0)

/-- `shard_of`. -/
def shardOf [Blake3] (key : RecordKey) (shards : UInt16) : UInt16 :=
  hexBits (ContentHash.of (asBytes (key.ns ++ "/" ++ key.collection ++ "/" ++ key.id))).text %
    shards

/-! ## The bytes of a shard -/

def shardMagic : Bytes := asBytes "GZVS"

def shardVersion : UInt8 := 1

/-- `put_str16`. -/
def putStr16 (s : String) : Bytes := leBytes 2 (asBytes s).length ++ asBytes s

def encodeEntry (entry : Entry) : Bytes :=
  putStr16 entry.1.ns ++ (putStr16 entry.1.collection ++
    ((leBytes 4 (asBytes entry.1.id).length ++ asBytes entry.1.id) ++
      entry.2.flatMap fun f => leBytes 4 f.toNat))

/-- `encode_shard`. -/
def encodeShard (dim : Nat) (entries : List Entry) : Bytes :=
  let sorted := entries.mergeSort fun a b => decide (a.1 ≤ b.1)
  shardMagic ++ ([shardVersion] ++ (leBytes 4 dim ++ (leBytes 4 sorted.length ++
    sorted.flatMap encodeEntry)))

abbrev ShardReader (α : Type) : Type := Reader CoreError α

/-- `Reader::take`. -/
def takeBytes (n : Nat) : ShardReader Bytes := Reader.take (.backend "vector shard: truncated") n

/-- A length of so many bytes. -/
def takeLength (width : Nat) : ShardReader Nat := do
  let bytes ← takeBytes width
  pure (leValue bytes)

/-- Text of so many bytes; an error says `said`, and where they stop being text. -/
def takeText (said : String) (n : Nat) : ShardReader String := do
  let bytes ← takeBytes n
  match utf8Text bytes with
  | some text => pure text
  | none => throw (.backend (said ++ ": " ++ utf8Error bytes))

/-- `Reader::str16`. -/
def takeStr16 : ShardReader String := do
  let len ← takeLength 2
  takeText "vector shard: bad utf8" len

def takeEntry (dim : Nat) : ShardReader Entry := do
  let ns ← takeStr16
  let collection ← takeStr16
  let idLen ← takeLength 4
  let id ← takeText "vector shard: bad utf8 in id" idLen
  let vector ← Reader.many (takeLength 4) dim
  pure (⟨ns, collection, id⟩, vector.map UInt32.ofNat)

/-- The rest of a shard after its version. -/
def takeEntries : ShardReader (Nat × List Entry) := do
  let dim ← takeLength 4
  let count ← takeLength 4
  let remaining ← get
  if remaining.length / (8 + dim * 4) < count then
    throw (.backend "vector shard: entry count exceeds remaining data")
  else
    let entries ← Reader.many (takeEntry dim) count
    pure (dim, entries)

def takeShard : ShardReader (Nat × List Entry) := do
  let magic ← takeBytes 4
  if magic ≠ shardMagic then throw (.backend "vector shard: bad magic")
  else
    let version ← takeBytes 1
    if version ≠ [shardVersion] then
      throw (.backend ("vector shard: unsupported version " ++
        toString ((version.headD 0).toNat) ++ ", expected " ++ toString shardVersion.toNat))
    else takeEntries

/-- `decode_shard`. -/
def decodeShard (bytes : Bytes) : Except CoreError (Nat × List Entry) :=
  (takeShard bytes).map Prod.fst

/-! ## What fits reads back -/

/-- An entry of a shard whose lengths fit their fields. -/
structure EntryFits (dim : Nat) (entry : Entry) : Prop where
  ns : (asBytes entry.1.ns).length < 65536
  collection : (asBytes entry.1.collection).length < 65536
  id : (asBytes entry.1.id).length < 4294967296
  vector : entry.2.length = dim

/-- A shard whose lengths fit their fields. -/
structure ShardFits (dim : Nat) (entries : List Entry) : Prop where
  width : dim < 4294967296
  count : entries.length < 4294967296
  entries : ∀ entry ∈ entries, EntryFits dim entry

theorem reads_bytes (written : Bytes) :
    Reader.Reads (takeBytes written.length) written written := Reader.reads_take _ written

theorem reads_length (width : Nat) {n : Nat} (fits : n < 256 ^ width) :
    Reader.Reads (takeLength width) (leBytes width n) n := by
  have read := reads_bytes (leBytes width n)
  rw [length_leBytes] at read
  have value := read.map leValue
  rwa [leValue_leBytes, Nat.mod_eq_of_lt fits] at value

theorem reads_text (said : String) (s : String) :
    Reader.Reads (takeText said (asBytes s).length) (asBytes s) s := by
  have both := @Reader.Reads.bind _ _ _ _ (fun bytes => match utf8Text bytes with
    | some text => pure text
    | none => throw (.backend (said ++ ": " ++ utf8Error bytes))) _ [] _ s (reads_bytes (asBytes s)) (by
      have text : utf8Text (asBytes s) = some s := utf8Text_toUTF8 s
      rw [text]
      exact Reader.reads_pure s)
  rwa [List.append_nil] at both

theorem reads_str16 {s : String} (fits : (asBytes s).length < 65536) :
    Reader.Reads takeStr16 (putStr16 s) s :=
  (reads_length 2 fits).bind (reads_text _ s)

theorem reads_entry {dim : Nat} {entry : Entry} (fits : EntryFits dim entry) :
    Reader.Reads (takeEntry dim) (encodeEntry entry) entry := by
  obtain ⟨⟨ns, collection, id⟩, vector⟩ := entry
  refine (reads_str16 fits.ns).bind ((reads_str16 fits.collection).bind ?_)
  rw [List.append_assoc]
  refine (reads_length 4 fits.id).bind ((reads_text _ id).bind ?_)
  have floats : Reader.Reads (Reader.many (takeLength 4) dim)
      (vector.flatMap fun f => leBytes 4 f.toNat) (vector.map UInt32.toNat) := by
    have read := @Reader.reads_many _ _ (takeLength 4) (leBytes 4) (vector.map UInt32.toNat)
      fun n member => by
        obtain ⟨f, -, rfl⟩ := List.mem_map.mp member
        exact reads_length 4 f.toNat_lt
    rwa [List.length_map, fits.vector, List.flatMap_map] at read
  have back := floats.map fun values =>
    ((⟨ns, collection, id⟩ : RecordKey), values.map UInt32.ofNat)
  have same : (vector.map UInt32.toNat).map UInt32.ofNat = vector := by
    simp [List.map_map, Function.comp_def]
  rwa [same] at back

theorem length_encodeEntry {dim : Nat} {entry : Entry} (fits : EntryFits dim entry) :
    8 + dim * 4 ≤ (encodeEntry entry).length := by
  have floats : (entry.2.flatMap fun f => leBytes 4 f.toNat).length = dim * 4 := by
    rw [List.length_flatMap]
    simp [fits.vector]
  simp only [encodeEntry, putStr16, List.length_append, length_leBytes, floats]
  omega

theorem length_encodeEntries {dim : Nat} {entries : List Entry}
    (fits : ∀ entry ∈ entries, EntryFits dim entry) :
    entries.length * (8 + dim * 4) ≤ (entries.flatMap encodeEntry).length := by
  induction entries with
  | nil => simp
  | cons entry rest ih =>
    have first := length_encodeEntry (fits entry (by simp))
    have others := ih fun e member => fits e (List.mem_cons_of_mem _ member)
    rw [List.length_cons, List.flatMap_cons, List.length_append, Nat.succ_mul]
    omega

/-- The bytes of a shard whose lengths fit their fields are read to their end. -/
theorem takeShard_encode {dim : Nat} {entries : List Entry} (fits : ShardFits dim entries) :
    takeShard (encodeShard dim entries) =
      .ok ((dim, entries.mergeSort fun a b => decide (a.1 ≤ b.1)), []) := by
  unfold encodeShard
  dsimp only
  have length : (entries.mergeSort fun a b => decide (a.1 ≤ b.1)).length = entries.length :=
    List.length_mergeSort entries
  have all : ∀ entry ∈ entries.mergeSort fun a b => decide (a.1 ≤ b.1), EntryFits dim entry :=
    fun entry member => fits.entries entry (List.mem_mergeSort.mp member)
  generalize (entries.mergeSort fun a b => decide (a.1 ≤ b.1)) = sorted at length all
  have count : sorted.length < 4294967296 := length ▸ fits.count
  have room : ¬ (sorted.flatMap encodeEntry).length / (8 + dim * 4) < sorted.length := by
    have total := length_encodeEntries all
    have enough := (Nat.le_div_iff_mul_le (by omega : 0 < 8 + dim * 4)).mpr total
    omega
  have items := Reader.reads_many fun entry member => reads_entry (all entry member)
  have magic : Reader.Reads (takeBytes 4) shardMagic shardMagic := reads_bytes shardMagic
  have version : Reader.Reads (takeBytes 1) [shardVersion] [shardVersion] :=
    reads_bytes [shardVersion]
  unfold takeShard
  rw [magic.run_bind, if_neg (not_not.mpr rfl), version.run_bind, if_neg (not_not.mpr rfl)]
  unfold takeEntries
  rw [(reads_length 4 fits.width).run_bind, (reads_length 4 count).run_bind]
  have back := items.map (fun entries => (dim, entries)) []
  rw [List.append_nil] at back
  change (if (sorted.flatMap encodeEntry).length / (8 + dim * 4) < sorted.length then _ else _ :
    ShardReader (Nat × List Entry)) _ = _
  rw [if_neg room, back]

/-- A shard whose lengths fit their fields reads back as it was written, in key order. -/
theorem decode_encode {dim : Nat} {entries : List Entry} (fits : ShardFits dim entries) :
    decodeShard (encodeShard dim entries) =
      .ok (dim, entries.mergeSort fun a b => decide (a.1 ≤ b.1)) := by
  unfold decodeShard
  rw [takeShard_encode fits]
  rfl

/-! ## What reads fits -/

theorem yields_length (width : Nat) :
    Reader.Yields (takeLength width) fun n => n < 256 ^ width := by
  refine (Reader.yields_take _ width).bind fun bytes length => Reader.yields_pure ?_
  exact length ▸ leValue_lt bytes

theorem yields_text (said : String) (n : Nat) :
    Reader.Yields (takeText said n) fun text => (asBytes text).length = n := by
  refine (Reader.yields_take _ n).bind fun bytes length => ?_
  cases text : utf8Text bytes with
  | none => exact fun _ _ _ read => by cases read
  | some s =>
    refine Reader.yields_pure ?_
    have same : asBytes s = bytes := toUTF8_utf8Text text
    exact same ▸ length

theorem yields_str16 : Reader.Yields takeStr16 fun text => (asBytes text).length < 65536 :=
  (yields_length 2).bind fun n small bytes text rest read =>
    yields_text _ n bytes text rest read ▸ small

theorem yields_entry (dim : Nat) : Reader.Yields (takeEntry dim) (EntryFits dim) := by
  refine yields_str16.bind fun ns nsFits => yields_str16.bind fun collection collectionFits => ?_
  refine (yields_length 4).bind fun idLen small => (yields_text _ idLen).bind fun id length => ?_
  refine (Reader.yields_many (yields_length 4) dim).bind fun vector ⟨many, _⟩ =>
    Reader.yields_pure ?_
  refine ⟨nsFits, collectionFits, ?_, by simp [many]⟩
  dsimp only
  omega

/-- What is accepted as a shard fits its fields. -/
theorem decodeShard_fits {bytes : Bytes} {dim : Nat} {entries : List Entry}
    (read : decodeShard bytes = .ok (dim, entries)) : ShardFits dim entries := by
  have yields : Reader.Yields takeShard fun shard => ShardFits shard.1 shard.2 := by
    refine (Reader.yields_take _ 4).bind fun magic _ => ?_
    split
    · exact fun _ _ _ read => by cases read
    refine (Reader.yields_take _ 1).bind fun version _ => ?_
    split
    · exact fun _ _ _ read => by cases read
    refine (yields_length 4).bind fun dim width => (yields_length 4).bind fun count few => ?_
    refine Reader.Yields.bind (P := fun _ => True) (fun _ _ _ _ => trivial) fun remaining _ => ?_
    split
    · exact fun _ _ _ read => by cases read
    refine (Reader.yields_many (yields_entry dim) count).bind fun entries ⟨many, all⟩ =>
      Reader.yields_pure ⟨width, ?_, all⟩
    exact many ▸ few
  unfold decodeShard at read
  cases whole : takeShard bytes with
  | error e =>
    rw [whole] at read
    cases read
  | ok result =>
    obtain ⟨shard, rest⟩ := result
    rw [whole] at read
    cases read
    exact yields bytes _ _ whole

end Gonzalo.Vector
