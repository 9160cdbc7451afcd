import Gonzalo.Lib.KeySort
import Gonzalo.Vector.RecordIndex

/-!
# The format of a shard

What `decode_shard` makes of the bytes of `encode_shard`, of a part of them and of any
other bytes. Lengths count in 32 bits, so a shard within the limits reads back, and what is
read back at all is within the limits.
-/

set_option autoImplicit false

namespace Gonzalo.Vector
open Gonzalo.Core Gonzalo.Lib

/-! ## The bound on the number of entries -/

/-- `usize::saturating_add`, on a machine whose largest `usize` is `usizeMax`. -/
def saturatingAdd (usizeMax a b : Nat) : Nat := min (a + b) usizeMax

/-- `usize::saturating_mul`. -/
def saturatingMul (usizeMax a b : Nat) : Nat := min (a * b) usizeMax

/-- `min_entry_size` of `decode_shard`. -/
def minEntrySize (usizeMax dim : Nat) : Nat :=
  saturatingAdd usizeMax 8 (saturatingMul usizeMax dim 4)

/-- `max_count` of `decode_shard`. -/
def maxCount (usizeMax remaining dim : Nat) : Nat :=
  if minEntrySize usizeMax dim = 0 then usizeMax else remaining / minEntrySize usizeMax dim

/-- `takeEntries`, with the bound in the arithmetic of the machine. -/
def takeEntriesOn (usizeMax : Nat) : ShardReader (Nat × List Entry) := do
  let dim ← takeLength 4
  let count ← takeLength 4
  let remaining ← get
  if maxCount usizeMax remaining.length dim < count then
    throw (.backend "vector shard: entry count exceeds remaining data")
  else
    let entries ← Reader.many (takeEntry dim) count
    pure (dim, entries)

/-- On a machine of 64 bits nothing saturates. -/
theorem minEntrySize_exact {dim : Nat} (width : dim < 4294967296) :
    minEntrySize 18446744073709551615 dim = 8 + dim * 4 := by
  unfold minEntrySize saturatingAdd saturatingMul
  omega

/-- Saturated or not, the bound is the one of exact arithmetic: a slice is shorter than the
largest `usize`, so that a saturated size admits no entry, as the exact one does. -/
theorem maxCount_exact {usizeMax remaining dim : Nat} (large : 8 ≤ usizeMax)
    (short : remaining < usizeMax) :
    maxCount usizeMax remaining dim = remaining / (8 + dim * 4) := by
  unfold maxCount minEntrySize saturatingAdd saturatingMul
  by_cases fits : 8 + dim * 4 ≤ usizeMax
  · have size : min (8 + min (dim * 4) usizeMax) usizeMax = 8 + dim * 4 := by omega
    rw [size, if_neg (by omega)]
  · have size : min (8 + min (dim * 4) usizeMax) usizeMax = usizeMax := by omega
    rw [size, if_neg (by omega), Nat.div_eq_of_lt short, Nat.div_eq_of_lt (by omega)]

/-- Two readers that start alike agree where their continuations do on what is left. -/
theorem takeLength_bind_congr {α : Type} {width : Nat} {next next' : Nat → ShardReader α}
    {bytes : Bytes} (same : ∀ n (rest : Bytes), rest.length ≤ bytes.length →
      next n rest = next' n rest) :
    (takeLength width >>= next) bytes = (takeLength width >>= next') bytes := by
  change (takeLength width bytes >>= fun p => next p.1 p.2) =
    (takeLength width bytes >>= fun p => next' p.1 p.2)
  cases read : takeLength width bytes with
  | error e => rfl
  | ok p =>
    apply same p.1 p.2
    by_cases enough : width ≤ bytes.length
    · have taken : takeLength width bytes =
          .ok (leValue (bytes.take width), bytes.drop width) := by
        change (Reader.take _ width bytes >>= fun q => (pure (leValue q.1) : ShardReader Nat) q.2) = _
        unfold Reader.take
        rw [if_pos enough]
        rfl
      rw [taken] at read
      cases read
      simp
    · have failed : takeLength width bytes = .error (.backend "vector shard: truncated") := by
        change (Reader.take _ width bytes >>= fun q => (pure (leValue q.1) : ShardReader Nat) q.2) = _
        unfold Reader.take
        rw [if_neg enough]
        rfl
      rw [failed] at read
      cases read

/-- The machine's arithmetic changes nothing for any bytes that it can hold. -/
theorem takeEntriesOn_eq {usizeMax : Nat} {bytes : Bytes} (large : 8 ≤ usizeMax)
    (short : bytes.length < usizeMax) : takeEntriesOn usizeMax bytes = takeEntries bytes := by
  unfold takeEntriesOn takeEntries
  apply takeLength_bind_congr
  intro dim rest shorter
  apply takeLength_bind_congr
  intro count rest' shorter'
  change (if maxCount usizeMax rest'.length dim < count then _ else _ :
      ShardReader (Nat × List Entry)) rest' =
    (if rest'.length / (8 + dim * 4) < count then _ else _ :
      ShardReader (Nat × List Entry)) rest'
  rw [maxCount_exact large (by omega)]

/-! ## Every strict prefix is refused -/

theorem extends_length (width : Nat) : Reader.Extends (takeLength width) :=
  (Reader.extends_take _ width).bind fun bytes => Reader.extends_pure (leValue bytes)

theorem extends_text (said : String) (n : Nat) : Reader.Extends (takeText said n) := by
  refine (Reader.extends_take _ n).bind fun bytes => ?_
  cases utf8Text bytes with
  | none => exact Reader.extends_throw _
  | some text => exact Reader.extends_pure text

theorem extends_str16 : Reader.Extends takeStr16 :=
  (extends_length 2).bind fun len => extends_text _ len

theorem extends_entry (dim : Nat) : Reader.Extends (takeEntry dim) := by
  refine extends_str16.bind fun ns => extends_str16.bind fun collection => ?_
  refine (extends_length 4).bind fun idLen => (extends_text _ idLen).bind fun id => ?_
  exact (Reader.extends_many (extends_length 4) dim).bind fun vector => Reader.extends_pure _

/-- With more bytes behind, the bound admits what it admitted before. -/
theorem extends_entries : Reader.Extends takeEntries := by
  refine (extends_length 4).bind fun dim => (extends_length 4).bind fun count => ?_
  intro bytes value rest more read
  change (if bytes.length / (8 + dim * 4) < count then _ else _ :
    ShardReader (Nat × List Entry)) bytes = _ at read
  change (if (bytes ++ more).length / (8 + dim * 4) < count then _ else _ :
    ShardReader (Nat × List Entry)) (bytes ++ more) = _
  split at read
  · cases read
  next admitted =>
    have grows : bytes.length / (8 + dim * 4) ≤ (bytes ++ more).length / (8 + dim * 4) := by
      apply Nat.div_le_div_right
      simp
    rw [if_neg (by omega)]
    have items := (Reader.extends_many (extends_entry dim) count).bind fun entries =>
      Reader.extends_pure (dim, entries)
    exact items bytes value rest more read

theorem extends_shard : Reader.Extends takeShard := by
  refine (Reader.extends_take _ 4).bind fun magic => ?_
  split
  · exact Reader.extends_throw _
  refine (Reader.extends_take _ 1).bind fun version => ?_
  split
  · exact Reader.extends_throw _
  · exact extends_entries

/-- A part of a shard's bytes is refused: were it read, the whole would leave bytes over. -/
theorem decode_strict_prefix {dim : Nat} {entries : List Entry} (fits : ShardFits dim entries)
    {front : Bytes} (before : front <+: encodeShard dim entries)
    (strict : front ≠ encodeShard dim entries) : ∃ error, decodeShard front = .error error := by
  obtain ⟨more, whole⟩ := before
  unfold decodeShard
  cases read : takeShard front with
  | error error => exact ⟨error, rfl⟩
  | ok result =>
    obtain ⟨shard, rest⟩ := result
    have all := extends_shard front shard rest more read
    rw [whole, takeShard_encode fits] at all
    have none_left : rest ++ more = [] := by
      injection all with pair
      exact (Prod.mk.inj pair).2.symm
    rw [(List.append_eq_nil_iff.mp none_left).2, List.append_nil] at whole
    exact absurd whole strict

/-! ## What reads back -/

theorem encodeShard_perm {dim : Nat} {entries entries' : List Entry}
    (perm : entries'.Perm entries) (distinct : (entries.map Prod.fst).Nodup) :
    encodeShard dim entries' = encodeShard dim entries := by
  have sorted : byKey entries' = byKey entries := byKey_congr perm distinct
  unfold byKey at sorted
  unfold encodeShard
  rw [sorted]

/-- Within the limits a shard reads back in key order, whatever order it was written from,
and no part of its bytes reads. Whatever does read makes the same map when it is written
again. The bound on the count is the one of exact arithmetic on every machine. -/
theorem shard_codec {dim : Nat} {entries : List Entry} (fits : ShardFits dim entries)
    (distinct : (entries.map Prod.fst).Nodup) :
    (∃ sorted : List Entry, decodeShard (encodeShard dim entries) = .ok (dim, sorted) ∧
      sorted.Perm entries ∧ sorted.Pairwise fun a b => a.1 < b.1) ∧
    (∀ entries' : List Entry, entries'.Perm entries →
      encodeShard dim entries' = encodeShard dim entries) ∧
    (∀ front : Bytes, front <+: encodeShard dim entries → front ≠ encodeShard dim entries →
      ∃ error, decodeShard front = .error error) ∧
    (∀ (bytes : Bytes) (width : Nat) (read : List Entry),
      decodeShard bytes = .ok (width, read) → ∃ again : List Entry,
        decodeShard (encodeShard width read) = .ok (width, again) ∧
        entryMap again = entryMap read) ∧
    (∀ (usizeMax : Nat) (bytes : Bytes), 8 ≤ usizeMax → bytes.length < usizeMax →
      takeEntriesOn usizeMax bytes = takeEntries bytes) ∧
    ∀ width, width < 4294967296 → minEntrySize 18446744073709551615 width = 8 + width * 4 := by
  refine ⟨⟨byKey entries, decode_encode fits, byKey_perm entries, byKey_lt distinct⟩,
    fun entries' perm => encodeShard_perm perm distinct,
    fun front before strict => decode_strict_prefix fits before strict,
    fun bytes width read found => ?_,
    fun usizeMax bytes large short => takeEntriesOn_eq large short,
    fun width small => minEntrySize_exact small⟩
  exact ⟨byKey read, decode_encode (decodeShard_fits found), entryMap_byKey read⟩

/-- Two entries, not in key order. -/
def twoEntries : List Entry := [(⟨"ns", "c", "b"⟩, [1]), (⟨"ns", "c", "a"⟩, [2])]

theorem shard_codec_two : ∃ sorted : List Entry,
    decodeShard (encodeShard 1 twoEntries) = .ok (1, sorted) ∧ sorted.Perm twoEntries ∧
      sorted.Pairwise fun a b => a.1 < b.1 := by
  have fits : ShardFits 1 twoEntries := by
    refine ⟨by decide, by decide, fun entry member => ?_⟩
    simp only [twoEntries, List.mem_cons, List.not_mem_nil, or_false] at member
    obtain rfl | rfl := member
    · exact ⟨by decide, by decide, by decide, rfl⟩
    · exact ⟨by decide, by decide, by decide, rfl⟩
  exact (shard_codec fits (by decide)).1

end Gonzalo.Vector
