import Gonzalo.Core.Paths

/-!
# Reading a segment back

`decode_segment` of `gonzalo-core/src/paths.rs`. It reads any text: an escape that is not
one stays as it is, and bytes that are not UTF-8 are replaced as `String::from_utf8_lossy`
replaces them. On the segments that `segment` writes neither happens.
-/

set_option autoImplicit false

namespace Gonzalo.Core

/-! ### Bytes as text -/

/-- Whether `b` may follow the first byte `lead` of a character. -/
def follows (lead b : UInt8) : Bool :=
  if lead = 0xE0 then 0xA0 ≤ b && b ≤ 0xBF
  else if lead = 0xED then 0x80 ≤ b && b ≤ 0x9F
  else if lead = 0xF0 then 0x90 ≤ b && b ≤ 0xBF
  else if lead = 0xF4 then 0x80 ≤ b && b ≤ 0x8F
  else 0x80 ≤ b && b ≤ 0xBF

/-- How many bytes after `lead` start a character that is not finished. -/
def started (lead : UInt8) : Bytes → Nat
  | second :: third :: _ =>
    if 0xE0 ≤ lead && lead ≤ 0xF4 && follows lead second then
      if 0xF0 ≤ lead && 0x80 ≤ third && third ≤ 0xBF then 2 else 1
    else 0
  | [second] => if 0xE0 ≤ lead && lead ≤ 0xF4 && follows lead second then 1 else 0
  | [] => 0

/-- The characters of `String::from_utf8_lossy`. -/
def lossyChars : Bytes → List Char
  | [] => []
  | lead :: rest =>
    match (lead :: rest).toByteArray.utf8DecodeChar? 0 with
    | some c => c :: lossyChars (rest.drop (c.utf8Size - 1))
    | none => '\uFFFD' :: lossyChars (rest.drop (started lead rest))
termination_by bytes => bytes.length
decreasing_by all_goals simp only [List.length_drop, List.length_cons]; omega

def fromUtf8Lossy (bytes : Bytes) : String := String.ofList (lossyChars bytes)

theorem lossyChars_encode_append (c : Char) (rest : Bytes) :
    lossyChars (String.utf8EncodeChar c ++ rest) = c :: lossyChars rest := by
  have decoded : (String.utf8EncodeChar c ++ rest).toByteArray.utf8DecodeChar? 0 = some c := by
    rw [List.toByteArray_append]
    exact ByteArray.utf8DecodeChar?_utf8EncodeChar_append
  have length := String.length_utf8EncodeChar c
  cases bytes : String.utf8EncodeChar c with
  | nil => exact absurd bytes String.utf8EncodeChar_ne_nil
  | cons lead more =>
    rw [bytes] at decoded length
    rw [List.cons_append] at decoded ⊢
    rw [lossyChars]
    simp only [decoded]
    have size : c.utf8Size - 1 = more.length := by simp only [List.length_cons] at length; omega
    rw [size, List.drop_left]

theorem lossyChars_flatMap (chars : List Char) :
    lossyChars (chars.flatMap String.utf8EncodeChar) = chars := by
  induction chars with
  | nil => rw [List.flatMap_nil, lossyChars]
  | cons c chars ih => rw [List.flatMap_cons, lossyChars_encode_append, ih]

theorem asBytes_ofList (chars : List Char) :
    asBytes (String.ofList chars) = chars.flatMap String.utf8EncodeChar := by
  unfold asBytes
  rw [String.toUTF8_eq_toByteArray, String.toByteArray_ofList]
  simp [List.utf8Encode]

theorem asBytes_eq (s : String) : asBytes s = s.toList.flatMap String.utf8EncodeChar := by
  conv_lhs => rw [← @String.ofList_toList s]
  exact asBytes_ofList s.toList

theorem fromUtf8Lossy_asBytes (s : String) : fromUtf8Lossy (asBytes s) = s := by
  rw [fromUtf8Lossy, asBytes_eq, lossyChars_flatMap, String.ofList_toList]

/-! ### Escapes -/

/-- `hex_val`. -/
def hexVal (b : UInt8) : Option UInt8 :=
  if 0x30 ≤ b && b ≤ 0x39 then some (b - 0x30)
  else if 0x41 ≤ b && b ≤ 0x46 then some (b - 0x41 + 10)
  else if 0x61 ≤ b && b ≤ 0x66 then some (b - 0x61 + 10)
  else none

/-- The byte that three bytes spell. -/
def spelled (b high low : UInt8) : Option UInt8 :=
  if b = 0x25 then (hexVal high).bind fun hi => (hexVal low).map fun lo => hi <<< 4 ||| lo else none

/-- The bytes that `decode_segment` collects. -/
def decodeBytes : Bytes → Bytes
  | [] => []
  | b :: high :: low :: rest =>
    match spelled b high low with
    | some byte => byte :: decodeBytes rest
    | none => b :: decodeBytes (high :: low :: rest)
  | b :: rest => b :: decodeBytes rest

/-- `decode_segment`. -/
def decodeSegment (s : String) : String := fromUtf8Lossy (decodeBytes (asBytes s))

theorem decodeBytes_literal {b : UInt8} (literal : b ≠ 0x25) (rest : Bytes) :
    decodeBytes (b :: rest) = b :: decodeBytes rest := by
  have unspelled : ∀ high low, spelled b high low = none := fun _ _ => if_neg literal
  match rest with
  | [] | [_] => simp [decodeBytes]
  | high :: low :: rest => simp only [decodeBytes, unspelled]

/-- The byte of a hexadecimal digit. -/
def digitByte (n : UInt8) : UInt8 := if n < 10 then 0x30 + n else 0x41 + (n - 10)

theorem UInt8.low_nibble_lt (b : UInt8) : (b &&& 0x0F).toNat < 16 := by
  rw [UInt8.toNat_and]
  exact Nat.lt_of_le_of_lt Nat.and_le_right (by decide)

theorem UInt8.high_nibble_lt (b : UInt8) : (b >>> 4).toNat < 16 := by
  have := b.toNat_lt
  rw [UInt8.toNat_shiftRight, Nat.shiftRight_eq_div_pow]
  simp
  omega

theorem forall_nibble {P : UInt8 → Prop} (each : ∀ n : Fin 16, P (UInt8.ofNat n)) {b : UInt8}
    (small : b.toNat < 16) : P b := by
  simpa using each ⟨b.toNat, small⟩

theorem hexVal_digitByte {n : UInt8} (small : n.toNat < 16) : hexVal (digitByte n) = some n :=
  @forall_nibble (fun n => hexVal (digitByte n) = some n) (by decide) n small

theorem encode_hexDigit {n : UInt8} (small : n.toNat < 16) :
    String.utf8EncodeChar (hexDigit n) = [digitByte n] :=
  @forall_nibble (fun n => String.utf8EncodeChar (hexDigit n) = [digitByte n]) (by decide) n small

theorem nibbles (b : UInt8) : (b >>> 4) <<< 4 ||| b &&& 0x0F = b := by
  have small := b.toNat_lt
  apply UInt8.toNat_inj.mp
  have low : b.toNat &&& 15 = b.toNat % 16 := Nat.and_two_pow_sub_one_eq_mod b.toNat 4
  have high : (b.toNat >>> 4) <<< 4 % 256 = (b.toNat >>> 4) <<< 4 := by
    rw [Nat.shiftRight_eq_div_pow, Nat.shiftLeft_eq]
    omega
  simp only [UInt8.toNat_or, UInt8.toNat_and, UInt8.toNat_shiftLeft, UInt8.toNat_shiftRight]
  simp only [UInt8.reduceToNat, Nat.reduceMod, Nat.reducePow, low, high]
  rw [← Nat.shiftLeft_add_eq_or_of_lt (by omega), Nat.shiftRight_eq_div_pow, Nat.shiftLeft_eq]
  omega

/-- An unreserved byte is its own character, and no escape starts with it. -/
theorem unreserved_literal {b : UInt8} (plain : unreserved b = true) :
    String.utf8EncodeChar (Char.ofNat b.toNat) = [b] ∧ b ≠ 0x25 := by
  have small : b.toNat < 128 := by
    simp only [unreserved, Bool.or_eq_true, Bool.and_eq_true, decide_eq_true_eq,
      UInt8.le_iff_toNat_le, UInt8.ext_iff] at plain
    simp at plain
    omega
  have valid : b.toNat.isValidChar := Or.inl (by omega)
  have value : (Char.ofNat b.toNat).toNat = b.toNat := by rw [Char.ofNat, dif_pos valid]; rfl
  have size : (Char.ofNat b.toNat).utf8Size = 1 := by
    rw [Char.utf8Size_eq_one_iff, UInt32.le_iff_toNat_le]
    change (Char.ofNat b.toNat).toNat ≤ 127
    omega
  refine ⟨?_, ?_⟩
  · rw [String.utf8EncodeChar_eq_singleton size]
    simp only [List.cons.injEq, and_true]
    apply UInt8.toNat_inj.mp
    change (Char.ofNat b.toNat).toNat % 256 = b.toNat
    omega
  · rintro rfl
    exact absurd plain (by decide)

/-- The bytes of one escaped byte are read back as that byte. -/
theorem decodeBytes_escape (b : UInt8) (rest : Bytes) :
    decodeBytes ((escape b).flatMap String.utf8EncodeChar ++ rest) = b :: decodeBytes rest := by
  unfold escape
  split
  next plain =>
    obtain ⟨encoded, literal⟩ := unreserved_literal plain
    rw [List.flatMap_singleton, encoded]
    exact decodeBytes_literal literal rest
  next =>
    have high := UInt8.high_nibble_lt b
    have low := UInt8.low_nibble_lt b
    have percent : String.utf8EncodeChar '%' = [0x25] := by decide
    have byte : spelled 0x25 (digitByte (b >>> 4)) (digitByte (b &&& 0x0F)) = some b := by
      simp [spelled, hexVal_digitByte high, hexVal_digitByte low, nibbles]
    simp only [List.flatMap_cons, List.flatMap_nil, percent, encode_hexDigit high,
      encode_hexDigit low, List.cons_append, List.nil_append, decodeBytes, byte]

theorem decodeBytes_segment (bytes : Bytes) :
    decodeBytes ((bytes.flatMap escape).flatMap String.utf8EncodeChar) = bytes := by
  induction bytes with
  | nil => rfl
  | cons b bytes ih => rw [List.flatMap_cons, List.flatMap_append, decodeBytes_escape, ih]

theorem decodeSegment_segment (s : String) : decodeSegment (segment s) = s := by
  rw [decodeSegment, segment, asBytes_ofList, decodeBytes_segment, fromUtf8Lossy_asBytes]

theorem segment_injective : Function.Injective segment :=
  Function.LeftInverse.injective decodeSegment_segment

/-! ### What a segment may hold -/

theorem escape_plain (b : UInt8) : ∀ c ∈ escape b, c ≠ '/' ∧ c ≠ '.' := by
  intro c mem
  unfold escape at mem
  split at mem
  next plain =>
    obtain ⟨encoded, -⟩ := unreserved_literal plain
    rw [← List.mem_singleton.mp mem] at encoded
    constructor
    · rintro rfl
      cases (show [0x2F] = [b] from encoded)
      exact absurd plain (by decide)
    · rintro rfl
      cases (show [0x2E] = [b] from encoded)
      exact absurd plain (by decide)
  next =>
    have digit : ∀ n : UInt8, n.toNat < 16 → hexDigit n ≠ '/' ∧ hexDigit n ≠ '.' := fun n small =>
      @forall_nibble (fun n => hexDigit n ≠ '/' ∧ hexDigit n ≠ '.') (by decide) n small
    simp only [List.mem_cons, List.not_mem_nil, or_false] at mem
    rcases mem with rfl | rfl | rfl
    · decide
    · exact digit _ (UInt8.high_nibble_lt b)
    · exact digit _ (UInt8.low_nibble_lt b)

theorem segment_toList (s : String) : (segment s).toList = (asBytes s).flatMap escape :=
  String.toList_ofList

theorem slash_notMem_segment (s : String) : '/' ∉ (segment s).toList := by
  rw [segment_toList]
  intro mem
  obtain ⟨b, -, mem⟩ := List.mem_flatMap.mp mem
  exact (escape_plain b _ mem).1 rfl

theorem dot_notMem_segment (s : String) : '.' ∉ (segment s).toList := by
  rw [segment_toList]
  intro mem
  obtain ⟨b, -, mem⟩ := List.mem_flatMap.mp mem
  exact (escape_plain b _ mem).2 rfl

/-! ### Taking names apart -/

/-- `str::strip_suffix`. -/
def stripSuffix (s suffix : String) : Option String :=
  (s.toList.dropSuffix? suffix.toList).map String.ofList

/-- `str::strip_prefix`. -/
def stripPrefix (s start : String) : Option String :=
  (s.toList.dropPrefix? start.toList).map String.ofList

/-- `str::split` at a character. -/
def splitAt (s : String) (c : Char) : List String := (s.toList.splitOn c).map String.ofList

/-- `str::rsplit_once`: the text before and after the last `c`. -/
def rsplitOnce (s : String) (c : Char) : Option (String × String) :=
  if c ∈ s.toList then
    let back := s.toList.reverse
    some (String.ofList (back.dropWhile (· ≠ c)).tail.reverse,
      String.ofList (back.takeWhile (· ≠ c)).reverse)
  else none

theorem stripSuffix_eq_some {s suffix rest : String} :
    stripSuffix s suffix = some rest ↔ s = rest ++ suffix := by
  rw [stripSuffix, Option.map_eq_some_iff]
  constructor
  · rintro ⟨chars, dropped, rfl⟩
    obtain ⟨tail, split, same⟩ := List.dropSuffix?_eq_some_iff.mp dropped
    apply String.toList_injective
    rw [String.toList_append, String.toList_ofList, split, eq_of_beq same]
  · rintro rfl
    refine ⟨rest.toList, List.dropSuffix?_eq_some_iff.mpr ⟨suffix.toList, ?_, BEq.rfl⟩, ?_⟩
    · exact String.toList_append
    · exact String.ofList_toList

theorem stripPrefix_eq_some {s start rest : String} :
    stripPrefix s start = some rest ↔ s = start ++ rest := by
  rw [stripPrefix, Option.map_eq_some_iff]
  constructor
  · rintro ⟨chars, dropped, rfl⟩
    obtain ⟨head, split, same⟩ := List.dropPrefix?_eq_some_iff.mp dropped
    apply String.toList_injective
    rw [String.toList_append, String.toList_ofList, split, eq_of_beq same]
  · rintro rfl
    refine ⟨rest.toList, List.dropPrefix?_eq_some_iff.mpr ⟨start.toList, ?_, BEq.rfl⟩, ?_⟩
    · exact String.toList_append
    · exact String.ofList_toList

/-- A name without a dot has no suffix with one. -/
theorem stripSuffix_of_no_dot {s suffix : String} (plain : '.' ∉ s.toList)
    (dot : '.' ∈ suffix.toList) : stripSuffix s suffix = none := by
  cases stripped : stripSuffix s suffix with
  | none => rfl
  | some rest =>
    rw [stripSuffix_eq_some.mp stripped, String.toList_append, List.mem_append] at plain
    exact absurd (Or.inr dot) plain

/-- A name that ends in another character does not have the suffix. -/
theorem stripSuffix_of_last {rest ending suffix : String} (ends : ending.toList ≠ [])
    (other : ending.toList.getLast? ≠ suffix.toList.getLast?) (nonempty : suffix.toList ≠ []) :
    stripSuffix (rest ++ ending) suffix = none := by
  cases stripped : stripSuffix (rest ++ ending) suffix with
  | none => rfl
  | some own =>
    have same := congrArg (fun s => s.toList.getLast?) (stripSuffix_eq_some.mp stripped)
    simp only [String.toList_append, List.getLast?_append_of_ne_nil _ ends,
      List.getLast?_append_of_ne_nil _ nonempty] at same
    exact absurd same other

/-- Fields without the separator are what the joined text splits into. -/
theorem splitAt_intercalate {sep : String} {c : Char} (single : sep.toList = [c])
    {fields : List String} (plain : ∀ f ∈ fields, c ∉ f.toList) (nonempty : fields ≠ []) :
    splitAt (sep.intercalate fields) c = fields := by
  have parts : ∀ l ∈ fields.map String.toList, c ∉ l := by
    intro l member
    obtain ⟨f, listed, rfl⟩ := List.mem_map.mp member
    exact plain f listed
  have joined : (sep.intercalate fields).toList = [c].intercalate (fields.map String.toList) := by
    rw [String.toList_intercalate, single]
  rw [splitAt, joined, List.splitOn_intercalate c parts (by simpa using nonempty), List.map_map]
  simp

/-- Parts that hold no slash are what the joined text splits into. -/
theorem splitAt_join {a b c : String} (ha : '/' ∉ a.toList) (hb : '/' ∉ b.toList)
    (hc : '/' ∉ c.toList) : splitAt (a ++ "/" ++ b ++ "/" ++ c) '/' = [a, b, c] := by
  have joined : (a ++ "/" ++ b ++ "/" ++ c).toList =
      ['/'].intercalate [a.toList, b.toList, c.toList] := by
    simp [List.intercalate, String.toList_append]
  have parts : ∀ l ∈ [a.toList, b.toList, c.toList], '/' ∉ l := by
    simp only [List.mem_cons, List.not_mem_nil, or_false]
    rintro l (rfl | rfl | rfl)
    · exact ha
    · exact hb
    · exact hc
  rw [splitAt, joined, List.splitOn_intercalate '/' parts (List.cons_ne_nil _ _)]
  simp only [List.map_cons, List.map_nil, String.ofList_toList]

/-! ### Content hashes as names -/

/-- `is_ascii_hexdigit`. -/
def isHexDigit (c : Char) : Bool :=
  ['0', '1', '2', '3', '4', '5', '6', '7', '8', '9', 'a', 'b', 'c', 'd', 'e', 'f',
    'A', 'B', 'C', 'D', 'E', 'F'].contains c

/-- Whether a content hash is 64 hexadecimal digits, as blake3 writes them. -/
def ContentHash.Hex (self : ContentHash) : Prop :=
  self.text.length = 64 ∧ self.text.toList.all isHexDigit = true

structure BlobHash where
  hash : ContentHash
  hex : hash.Hex

theorem ContentHash.Hex.notMem {self : ContentHash} (hex : self.Hex) {c : Char}
    (other : isHexDigit c = false) : c ∉ self.text.toList := by
  intro mem
  have digit := List.all_eq_true.mp hex.2 c mem
  rw [other] at digit
  exact Bool.noConfusion digit

theorem ContentHash.Hex.ne_empty {self : ContentHash} (hex : self.Hex) : self.text ≠ "" := by
  intro empty
  have length := hex.1
  rw [empty] at length
  exact absurd length (by decide)

/-- A content hash is its own segment. -/
theorem ContentHash.Hex.segment_eq {self : ContentHash} (hex : self.Hex) :
    segment self.text = self.text := by
  have each : ∀ c, isHexDigit c = true → (String.utf8EncodeChar c).flatMap escape = [c] := by
    intro c digit
    have plain : ['0', '1', '2', '3', '4', '5', '6', '7', '8', '9', 'a', 'b', 'c', 'd', 'e', 'f',
        'A', 'B', 'C', 'D', 'E', 'F'].all (fun c => unreserved (UInt8.ofNat c.toNat) &&
          Char.ofNat (UInt8.ofNat c.toNat).toNat == c) = true := by decide
    have own := List.all_eq_true.mp plain c (List.contains_iff_mem.mp digit)
    rw [Bool.and_eq_true, beq_iff_eq] at own
    obtain ⟨byte, char⟩ := own
    obtain ⟨encoded, -⟩ := unreserved_literal byte
    rw [char] at encoded
    rw [encoded, List.flatMap_singleton, escape, if_pos byte, char]
  have all : ∀ chars : List Char, chars.all isHexDigit = true →
      (chars.flatMap String.utf8EncodeChar).flatMap escape = chars := by
    intro chars
    induction chars with
    | nil => intro _; rfl
    | cons c chars ih =>
      intro digits
      rw [List.all_cons, Bool.and_eq_true] at digits
      rw [List.flatMap_cons, List.flatMap_append, ih digits.2,
        each c digits.1, List.singleton_append]
  rw [segment, asBytes_eq, all _ hex.2, String.ofList_toList]

theorem segment_empty : segment "" = "" := by decide

theorem segment_eq_empty {s : String} : segment s = "" ↔ s = "" := by
  constructor
  · intro empty
    exact segment_injective (empty.trans segment_empty.symm)
  · rintro rfl
    exact segment_empty

end Gonzalo.Core
