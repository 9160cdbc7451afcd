import Gonzalo.Core.Record
import Gonzalo.Core.Segments

/-!
# Chunks

`chunk`, `chunk_key` and `parent_key` of `gonzalo-knowledge/src/lib.rs`: how a record is
split into texts, and the index key of each. The bodies are read by `serde_json`, which is a
parameter; a body type has the fields that `chunk` reads. An ordinal is a `Nat`: it counts
the texts of one record, far below the bounds of a `usize`.
-/

set_option autoImplicit false

namespace Gonzalo.Knowledge
open Gonzalo.Core

structure MemoryTier where
  name : String
  content : String

structure Topic where
  slug : String
  bullets : List String

structure Turn where
  text : String

structure Session where
  name : String
  turns : List Turn

structure TicketBody where
  markdown : String

structure Ticket where
  title : String
  labels : List String
  body : TicketBody

structure TicketEvent where
  body : String

/-- `serde_json::from_slice` at the types of the bodies. -/
class KnowledgeSerde where
  memoryTier : Bytes → Except String MemoryTier
  topic : Bytes → Except String Topic
  session : Bytes → Except String Session
  ticket : Bytes → Except String Ticket
  ticketEvent : Bytes → Except String TicketEvent

/-- `RecordCodec::from_body`, with the decoder of the type. -/
def fromBody {T : Type} (fromSlice : Bytes → Except String T) : Body → Except CoreError T
  | .inline bytes => (fromSlice bytes).mapError .serde
  | .blob _ _ => .error (.backend "cannot decode a blob-backed body without a BlobStore")

/-! ## Paragraphs -/

/-- `char::is_whitespace`. -/
def isWhitespace (c : Char) : Bool :=
  (0x09 ≤ c.val && c.val ≤ 0x0D) || c.val = 0x20 || c.val = 0x85 || c.val = 0xA0 ||
    c.val = 0x1680 || (0x2000 ≤ c.val && c.val ≤ 0x200A) || c.val = 0x2028 || c.val = 0x2029 ||
    c.val = 0x202F || c.val = 0x205F || c.val = 0x3000

/-- `str::trim`. -/
def trim (chars : List Char) : List Char :=
  ((chars.dropWhile isWhitespace).reverse.dropWhile isWhitespace).reverse

/-- `str::split("\n\n")`, after the characters `seen` of the piece at hand. -/
def splitBlankLines (seen : List Char) : List Char → List (List Char)
  | '\n' :: '\n' :: rest => seen.reverse :: splitBlankLines [] rest
  | c :: rest => splitBlankLines (c :: seen) rest
  | [] => [seen.reverse]

/-- `split_paragraphs`. -/
def splitParagraphs (text : String) : List String :=
  (((splitBlankLines [] text.toList).map trim).filter fun p => !p.isEmpty).map String.ofList

/-- `prepend_header`. -/
def prependHeader (header : String) : List String → List String
  | first :: rest => (header ++ "\n" ++ first) :: rest
  | [] => [header]

/-- `chunk`: the texts of a record, or none if its kind is not knowledge-bearing. -/
def chunk [KnowledgeSerde] (record : Record) : Except CoreError (Option (List String)) :=
  match record.kind with
  | .memoryTier => do
    let t ← fromBody KnowledgeSerde.memoryTier record.body
    return some (prependHeader t.name (splitParagraphs t.content))
  | .topic => do
    let t ← fromBody KnowledgeSerde.topic record.body
    return some (prependHeader t.slug t.bullets)
  | .session => do
    let s ← fromBody KnowledgeSerde.session record.body
    return some (prependHeader s.name (s.turns.map Turn.text))
  | .ticket => do
    let t ← fromBody KnowledgeSerde.ticket record.body
    return some ((t.title ++ "\n" ++ " ".intercalate t.labels) :: splitParagraphs t.body.markdown)
  | .ticketEvent => do
    let e ← fromBody KnowledgeSerde.ticketEvent record.body
    return some [e.body]
  | .checkpoint | .graphManifest | .vectorManifest | .tombstone | .person | .identityBinding
  | .roleGrant | .channelConfig | .linkToken | .auditEntry => .ok none

/-! ## Keys -/

/-- `CHUNK_SEP`. -/
def chunkSep : Char := '\u001f'

/-- `chunk_key`. -/
def chunkKey (parent : RecordKey) (ordinal : Nat) : RecordKey :=
  { parent with id := parent.id ++ chunkSep.toString ++ toString ordinal }

/-- `str::parse::<usize>`, for numbers of any size. -/
def parseUsize (s : String) : Option Nat :=
  let digits := match s.toList with
    | '+' :: digits => digits
    | digits => digits
  if digits ≠ [] ∧ digits.all Char.isDigit then some (Nat.ofDigitChars 10 digits 0) else none

/-- `parent_key`. -/
def parentKey (key : RecordKey) : RecordKey × Nat :=
  match rsplitOnce key.id chunkSep with
  | some (id, ord) => ({ key with id := id }, (parseUsize ord).getD 0)
  | none => (key, 0)

/-- The last separator of a text is the one before a piece that has none. -/
theorem rsplitOnce_append {front back : String} {c : Char} (free : c ∉ back.toList) :
    rsplitOnce (front ++ c.toString ++ back) c = some (front, back) := by
  have chars : (front ++ c.toString ++ back).toList = front.toList ++ c :: back.toList := by
    simp [Char.toString]
  have skipped : ∀ d ∈ back.toList.reverse, decide (d ≠ c) = true := by
    intro d member
    refine decide_eq_true fun same => free ?_
    rw [← same]
    exact List.mem_reverse.mp member
  unfold rsplitOnce
  rw [if_pos (by simp), chars]
  simp only [List.reverse_append, List.reverse_cons, List.append_assoc, List.singleton_append]
  rw [List.dropWhile_append_of_pos skipped, List.takeWhile_append_of_pos skipped]
  simp

theorem parseUsize_toString (n : Nat) : parseUsize (toString n) = some n := by
  have digits : (toString n).toList = Nat.toDigits 10 n := by simp
  have unsigned : ∀ rest, Nat.toDigits 10 n ≠ '+' :: rest := by
    intro rest same
    have sign := Nat.isDigit_of_mem_toDigits (by decide) (by decide)
      (same ▸ List.mem_cons_self : '+' ∈ Nat.toDigits 10 n)
    exact absurd sign (by decide)
  have read : (match Nat.toDigits 10 n with
      | '+' :: digits => digits
      | digits => digits) = Nat.toDigits 10 n := by
    split
    next rest same => exact absurd same (unsigned rest)
    next => rfl
  have numeric : (Nat.toDigits 10 n).all Char.isDigit = true :=
    List.all_eq_true.mpr fun d member => Nat.isDigit_of_mem_toDigits (by decide) (by decide) member
  unfold parseUsize
  rw [digits, read]
  simp [Nat.toDigits_ne_nil, numeric]

theorem parentKey_chunkKey (parent : RecordKey) (ordinal : Nat) :
    parentKey (chunkKey parent ordinal) = (parent, ordinal) := by
  have free : chunkSep ∉ (toString ordinal).toList := by
    intro member
    rw [Nat.toString_eq_ofList_toDigits, String.toList_ofList] at member
    have digit := Nat.isDigit_of_mem_toDigits (by decide) (by decide) member
    exact absurd digit (by decide)
  unfold parentKey chunkKey
  simp only [rsplitOnce_append free, parseUsize_toString, Option.getD_some]

/-- Different chunks have different keys. -/
theorem chunkKey_inj {parent parent' : RecordKey} {ordinal ordinal' : Nat} :
    chunkKey parent ordinal = chunkKey parent' ordinal' ↔ parent = parent' ∧ ordinal = ordinal' := by
  constructor
  · intro same
    have read := congrArg parentKey same
    rwa [parentKey_chunkKey, parentKey_chunkKey, Prod.mk.injEq] at read
  · rintro ⟨rfl, rfl⟩
    rfl

end Gonzalo.Knowledge
