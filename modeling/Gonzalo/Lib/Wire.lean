import Mathlib

/-!
# Bytes on the wire

Little-endian numbers, text and counted runs over lists of bytes, and a reader that takes
bytes off the front or fails. A value reads back from what was written for it and leaves
the bytes that follow.
-/

set_option autoImplicit false

namespace Gonzalo.Lib

/-- The low `width` bytes of a number, the least significant first. -/
def leBytes : Nat → Nat → List UInt8
  | 0, _ => []
  | width + 1, n => UInt8.ofNat (n % 256) :: leBytes width (n / 256)

/-- The number that little-endian bytes spell. -/
def leValue : List UInt8 → Nat
  | [] => 0
  | byte :: rest => byte.toNat + 256 * leValue rest

@[simp] theorem length_leBytes (width n : Nat) : (leBytes width n).length = width := by
  induction width generalizing n with
  | zero => rfl
  | succ width ih => simp [leBytes, ih]

theorem leValue_leBytes (width n : Nat) : leValue (leBytes width n) = n % 256 ^ width := by
  induction width generalizing n with
  | zero => simp [leBytes, leValue, Nat.mod_one]
  | succ width ih =>
    have byte : (UInt8.ofNat (n % 256)).toNat = n % 256 := by simp
    rw [leBytes, leValue, byte, ih, Nat.pow_succ, Nat.mul_comm (256 ^ width), Nat.mod_mul]

theorem leValue_lt (bytes : List UInt8) : leValue bytes < 256 ^ bytes.length := by
  induction bytes with
  | nil => simp [leValue]
  | cons byte rest ih =>
    have small := byte.toNat_lt
    rw [leValue, List.length_cons, Nat.pow_succ]
    omega

/-- The text that UTF-8 bytes spell. -/
def utf8Text (bytes : List UInt8) : Option String := String.fromUTF8? ⟨bytes.toArray⟩

theorem utf8Text_toUTF8 (s : String) : utf8Text s.toUTF8.data.toList = some s := by
  have same : (⟨s.toUTF8.data.toList.toArray⟩ : ByteArray) = s.toByteArray := by
    rw [Array.toArray_toList]
    rfl
  unfold utf8Text String.fromUTF8?
  rw [same, dif_pos s.isValidUTF8]
  rfl

theorem toUTF8_utf8Text {bytes : List UInt8} {s : String} (text : utf8Text bytes = some s) :
    s.toUTF8.data.toList = bytes := by
  unfold utf8Text String.fromUTF8? at text
  split at text
  next valid =>
    cases text
    rfl
  next => cases text

/-- Where bytes stop being text: the index of the first sequence that is none, and how many
of its bytes are at fault, unless the bytes just end there. -/
structure Utf8Error where
  validUpTo : Nat
  errorLen : Option Nat
  deriving DecidableEq, Repr

/-- What the error says of itself. -/
def Utf8Error.display : Utf8Error → String
  | ⟨index, some len⟩ =>
    "invalid utf-8 sequence of " ++ toString len ++ " bytes from index " ++ toString index
  | ⟨index, none⟩ => "incomplete utf-8 byte sequence from index " ++ toString index

/-- A byte that continues a sequence. -/
def isContinuation (byte : UInt8) : Bool := decide (0x80 ≤ byte ∧ byte ≤ 0xBF)

/-- The bytes that may come second in a sequence of three: no surrogates, nothing that two
bytes could spell. -/
def isSecondOfThree (first second : UInt8) : Bool :=
  if first = 0xE0 then decide (0xA0 ≤ second ∧ second ≤ 0xBF)
  else if first = 0xED then decide (0x80 ≤ second ∧ second ≤ 0x9F)
  else isContinuation second

/-- The bytes that may come second in a sequence of four. -/
def isSecondOfFour (first second : UInt8) : Bool :=
  if first = 0xF0 then decide (0x90 ≤ second ∧ second ≤ 0xBF)
  else if first = 0xF4 then decide (0x80 ≤ second ∧ second ≤ 0x8F)
  else isContinuation second

/-- The first fault of the bytes, which start at this index of the whole. -/
def utf8Fault (index : Nat) : List UInt8 → Option Utf8Error
  | [] => none
  | first :: rest =>
    if first < 0x80 then utf8Fault (index + 1) rest
    else if 0xC2 ≤ first ∧ first ≤ 0xDF then
      match rest with
      | [] => some ⟨index, none⟩
      | second :: rest =>
        if isContinuation second then utf8Fault (index + 2) rest else some ⟨index, some 1⟩
    else if 0xE0 ≤ first ∧ first ≤ 0xEF then
      match rest with
      | [] => some ⟨index, none⟩
      | second :: rest =>
        if isSecondOfThree first second then
          match rest with
          | [] => some ⟨index, none⟩
          | third :: rest =>
            if isContinuation third then utf8Fault (index + 3) rest else some ⟨index, some 2⟩
        else some ⟨index, some 1⟩
    else if 0xF0 ≤ first ∧ first ≤ 0xF4 then
      match rest with
      | [] => some ⟨index, none⟩
      | second :: rest =>
        if isSecondOfFour first second then
          match rest with
          | [] => some ⟨index, none⟩
          | third :: rest =>
            if isContinuation third then
              match rest with
              | [] => some ⟨index, none⟩
              | fourth :: rest =>
                if isContinuation fourth then utf8Fault (index + 4) rest
                else some ⟨index, some 3⟩
            else some ⟨index, some 2⟩
        else some ⟨index, some 1⟩
    else some ⟨index, some 1⟩

/-- The error of bytes that are no text. -/
def utf8Error (bytes : List UInt8) : String := ((utf8Fault 0 bytes).map Utf8Error.display).getD ""

example : utf8Error [0x61, 0xE2, 0x82, 0x41] =
    "invalid utf-8 sequence of 2 bytes from index 1" := by decide

/-- A reader of bytes. -/
abbrev Reader (ε α : Type) : Type := StateT (List UInt8) (Except ε) α

namespace Reader

variable {ε α β : Type}

/-- Take so many bytes off the front. -/
def take (short : ε) (n : Nat) : Reader ε (List UInt8) := fun bytes =>
  if n ≤ bytes.length then .ok (bytes.take n, bytes.drop n) else .error short

/-- Whatever follows, the reader gives `value` for `written` and leaves the rest. -/
def Reads (reader : Reader ε α) (written : List UInt8) (value : α) : Prop :=
  ∀ rest, reader (written ++ rest) = .ok (value, rest)

theorem reads_take (short : ε) (written : List UInt8) :
    Reads (take short written.length) written written := by
  intro rest
  simp [take]

theorem reads_pure (value : α) : Reads (pure value : Reader ε α) [] value := fun _ => rfl

theorem Reads.run_bind {reader : Reader ε α} {next : α → Reader ε β} {written : List UInt8}
    {value : α} (reads : Reads reader written value) (rest : List UInt8) :
    (reader >>= next) (written ++ rest) = next value rest := by
  change (reader (written ++ rest) >>= fun p => next p.1 p.2) = _
  rw [reads rest]
  rfl

theorem Reads.bind {reader : Reader ε α} {next : α → Reader ε β} {first second : List UInt8}
    {value : α} {result : β} (reads : Reads reader first value)
    (then_reads : Reads (next value) second result) :
    Reads (reader >>= next) (first ++ second) result := by
  intro rest
  rw [List.append_assoc, reads.run_bind]
  exact then_reads rest

theorem Reads.map {reader : Reader ε α} {written : List UInt8} {value : α} (f : α → β)
    (reads : Reads reader written value) :
    Reads (reader >>= fun a => pure (f a)) written (f value) := by
  have both := @Reads.bind _ _ _ reader (fun a => pure (f a)) written [] value (f value) reads
    (reads_pure (f value))
  rwa [List.append_nil] at both

/-- So many items, one after another. -/
def many (item : Reader ε α) : Nat → Reader ε (List α)
  | 0 => pure []
  | n + 1 => do
    let first ← item
    let others ← many item n
    pure (first :: others)

theorem reads_many {item : Reader ε α} {write : α → List UInt8} {items : List α}
    (reads : ∀ value ∈ items, Reads item (write value) value) :
    Reads (many item items.length) (items.flatMap write) items := by
  induction items with
  | nil => exact reads_pure []
  | cons first rest ih =>
    rw [List.flatMap_cons]
    refine (reads first (by simp)).bind ?_
    exact (ih fun value member => reads value (List.mem_cons_of_mem _ member)).map _

/-- Whatever the reader gives has the property. -/
def Yields (reader : Reader ε α) (P : α → Prop) : Prop :=
  ∀ bytes value rest, reader bytes = .ok (value, rest) → P value

theorem yields_take (short : ε) (n : Nat) : Yields (take short n) fun bytes => bytes.length = n := by
  intro bytes value rest read
  unfold take at read
  split at read
  next enough =>
    cases read
    exact List.length_take_of_le enough
  next => cases read

theorem yields_pure {P : α → Prop} {value : α} (holds : P value) :
    Yields (pure value : Reader ε α) P := by
  rintro bytes _ _ ⟨⟩
  exact holds

theorem Yields.bind {reader : Reader ε α} {next : α → Reader ε β} {P : α → Prop} {Q : β → Prop}
    (first : Yields reader P) (second : ∀ value, P value → Yields (next value) Q) :
    Yields (reader >>= next) Q := by
  intro bytes value rest read
  change (reader bytes >>= fun p => next p.1 p.2) = _ at read
  cases start : reader bytes with
  | error e =>
    rw [start] at read
    cases read
  | ok p =>
    rw [start] at read
    exact second p.1 (first bytes p.1 p.2 start) p.2 value rest read

theorem yields_many {item : Reader ε α} {P : α → Prop} (each : Yields item P) (n : Nat) :
    Yields (many item n) fun values => values.length = n ∧ ∀ value ∈ values, P value := by
  induction n with
  | zero => exact yields_pure ⟨rfl, by simp⟩
  | succ n ih =>
    refine each.bind fun first holds => ih.bind fun others ⟨length, all⟩ => yields_pure ?_
    refine ⟨by simp [length], fun value member => ?_⟩
    rcases List.mem_cons.mp member with rfl | later
    · exact holds
    · exact all value later

/-- The reader takes its bytes off the front and looks no further, so that more bytes behind
change nothing but what is left. -/
def Extends (reader : Reader ε α) : Prop :=
  ∀ bytes value rest more, reader bytes = .ok (value, rest) →
    reader (bytes ++ more) = .ok (value, rest ++ more)

theorem extends_take (short : ε) (n : Nat) : Extends (take short n) := by
  intro bytes value rest more read
  unfold take at read ⊢
  split at read
  next enough =>
    cases read
    have more_enough : n ≤ (bytes ++ more).length := by
      rw [List.length_append]
      omega
    rw [if_pos more_enough, List.take_append_of_le_length enough,
      List.drop_append_of_le_length enough]
  next => cases read

theorem extends_pure (value : α) : Extends (pure value : Reader ε α) := by
  intro bytes _ _ more read
  cases read
  rfl

theorem extends_throw (e : ε) : Extends (throw e : Reader ε α) := by
  intro bytes value rest more read
  cases read

theorem Extends.bind {reader : Reader ε α} {next : α → Reader ε β} (first : Extends reader)
    (second : ∀ value, Extends (next value)) : Extends (reader >>= next) := by
  intro bytes value rest more read
  change (reader bytes >>= fun p => next p.1 p.2) = _ at read
  change (reader (bytes ++ more) >>= fun p => next p.1 p.2) = _
  cases start : reader bytes with
  | error e =>
    rw [start] at read
    cases read
  | ok p =>
    rw [start] at read
    rw [first bytes p.1 p.2 more start]
    exact second p.1 p.2 value rest more read

theorem extends_many {item : Reader ε α} (each : Extends item) (n : Nat) :
    Extends (many item n) := by
  induction n with
  | zero => exact extends_pure []
  | succ n ih => exact each.bind fun first => ih.bind fun others => extends_pure (first :: others)

end Reader

end Gonzalo.Lib
