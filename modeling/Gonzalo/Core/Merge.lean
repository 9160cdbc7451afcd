import Gonzalo.Core.Record

/-!
# Merge strategies

`gonzalo-core/src/merge.rs`. JSON text is read and written by `serde_json`, which
is outside the repository: `Serde` is that library as the code uses it, on values
and on the two manifest types. Everything the crate does with a parsed value is
modelled. A JSON object is a list of fields in key order, as `serde_json::Map` is. Two values
may be equal and still print apart: a zero with a sign, and one without.
-/

set_option autoImplicit false

namespace Gonzalo.Core

/-- The bits of an `f64` that is no infinity and no NaN. -/
abbrev FiniteBits : Type := { bits : UInt64 // bits <<< 1 < 0xffe0000000000000 }

/-- `serde_json::Number`: an integer from zero on, one below, or a float. -/
inductive JsonNumber where
  | posInt (value : UInt64)
  | negInt (value : Int64)
  | float (bits : FiniteBits)
  deriving DecidableEq

theorem zero_finite : (0 : UInt64) <<< 1 < 0xffe0000000000000 := by decide

/-- A number as `==` sees it: the two floats that are zero are one. -/
def JsonNumber.value : JsonNumber → JsonNumber
  | posInt value => posInt value
  | negInt value => negInt value
  | float bits => if bits.1 <<< 1 = 0 then float ⟨0, zero_finite⟩ else float bits

mutual
/-- `serde_json::Value`. -/
inductive Json where
  | null
  | bool (value : Bool)
  | number (value : JsonNumber)
  | string (text : String)
  | array (elements : JsonList)
  | object (fields : JsonFields)

inductive JsonList where
  | nil
  | cons (head : Json) (rest : JsonList)

inductive JsonFields where
  | nil
  | cons (name : String) (value : Json) (rest : JsonFields)
end

deriving instance DecidableEq for Json

mutual
/-- A document as `==` sees it. -/
def Json.value : Json → Json
  | .null => .null
  | .bool value => .bool value
  | .number number => .number number.value
  | .string text => .string text
  | .array elements => .array elements.value
  | .object fields => .object fields.value

def JsonList.value : JsonList → JsonList
  | .nil => .nil
  | .cons head rest => .cons head.value rest.value

def JsonFields.value : JsonFields → JsonFields
  | .nil => .nil
  | .cons name value rest => .cons name value.value rest.value
end

/-- `==` of two optional documents. -/
abbrev Same (a b : Option Json) : Prop := a.map Json.value = b.map Json.value

namespace JsonFields

/-- `Map::get`. -/
def get? : JsonFields → String → Option Json
  | nil, _ => none
  | cons name value rest, key => if name = key then some value else rest.get? key

/-- `Map::keys`. -/
def keys : JsonFields → List String
  | nil => []
  | cons name _ rest => name :: rest.keys

theorem get?_value (fields : JsonFields) (key : String) :
    fields.value.get? key = (fields.get? key).map Json.value := by
  match fields with
  | nil => rfl
  | cons name value rest =>
    rw [JsonFields.value, get?, get?, get?_value rest key]
    split <;> rfl

theorem sizeOf_get?_le (fields : JsonFields) (key : String) :
    sizeOf (fields.get? key) ≤ sizeOf fields := by
  match fields with
  | nil => simp [get?]
  | cons name value rest =>
    have below := sizeOf_get?_le rest key
    rw [get?]
    split
    · simp only [Option.some.sizeOf_spec, JsonFields.cons.sizeOf_spec]
      omega
    · simp only [JsonFields.cons.sizeOf_spec]
      omega

end JsonFields

/-- `VectorManifest`: which blob holds each shard of a durable vector index. -/
structure VectorManifest where
  space : String
  dim : Nat
  shards : UInt16
  entries : Std.ExtTreeMap UInt16 ContentHash compare

/-- `Manifest`: the slice that populates each path of a view. -/
structure Manifest where
  entries : Std.ExtTreeMap String ContentHash compare

/-- `serde_json` as the crate calls it. -/
class Serde where
  fromSlice : Bytes → Option Json
  toVec : Json → Option Bytes
  manifestFromSlice : Bytes → Except String Manifest
  vectorManifestFromSlice : Bytes → Except String VectorManifest

/-- A reader that accepts nothing, for concrete runs whose bodies are not JSON. -/
abbrev plainSerde : Serde where
  fromSlice _ := none
  toVec _ := none
  manifestFromSlice _ := .error "expected value at line 1 column 1"
  vectorManifestFromSlice _ := .error "expected value at line 1 column 1"

/-- `Manifest::from_body`. -/
def Manifest.fromBody [Serde] (body : Body) : Except CoreError Manifest :=
  (Serde.manifestFromSlice body.bytes).mapError .serde

/-- `VectorManifest::from_body`. -/
def VectorManifest.fromBody [Serde] (body : Body) : Except CoreError VectorManifest :=
  (Serde.vectorManifestFromSlice body.bytes).mapError .serde

/-- The result of attempting an automatic merge of two divergent bodies. -/
inductive MergeOutcome where
  | merged (body : Body)
  | needsResolution
  deriving DecidableEq

mutual
/-- `merge_value`: three-way merge of one value, `none` on a genuine conflict. -/
def mergeValue (base ours theirs : Json) : Option Json :=
  if ours.value = theirs.value then some ours
  else if ours.value = base.value then some theirs
  else if theirs.value = base.value then some ours
  else
    match base, ours, theirs with
    | .object b, .object o, .object t =>
      let names := (b.keys ++ o.keys ++ t.keys).insertionSort (· ≤ ·)
      (mergeFields b o t (names.destutter (· ≠ ·))).map .object
    | _, _, _ => none
termination_by (sizeOf ours, 1, 0)
decreasing_by
  rw [Json.object.sizeOf_spec, Nat.add_comm 1]
  exact Prod.Lex.right _ (Prod.Lex.left _ _ Nat.zero_lt_one)

/-- The key-by-key loop of `merge_value`. -/
def mergeFields (base ours theirs : JsonFields) : List String → Option JsonFields
  | [] => some .nil
  | key :: rest =>
    match mergeField (base.get? key) (ours.get? key) (theirs.get? key) with
    | none => none
    | some field =>
      (mergeFields base ours theirs rest).map fun more =>
        match field with
        | some value => .cons key value more
        | none => more
termination_by keys => (sizeOf ours + 1, 0, keys.length)
decreasing_by
  · exact Prod.Lex.left _ _ (Nat.lt_succ_of_le (JsonFields.sizeOf_get?_le ours key))
  · exact Prod.Lex.right _ (Prod.Lex.right _ (by simp))

/-- `merge_field`: `none` is a conflict, `some none` a dropped key. -/
def mergeField (base ours theirs : Option Json) : Option (Option Json) :=
  if Same ours theirs then some ours
  else if Same ours base then some theirs
  else if Same theirs base then some ours
  else
    match ours, theirs with
    | some o, some t => (mergeValue (base.getD .null) o t).map some
    | _, _ => none
termination_by (sizeOf ours, 0, 0)
end

/-- `structured_merge`: a body that is not JSON needs a caller's resolution. -/
def structuredMerge [Serde] (base ours theirs : Body) : MergeOutcome :=
  match Serde.fromSlice base.bytes, Serde.fromSlice ours.bytes, Serde.fromSlice theirs.bytes with
  | some base, some ours, some theirs =>
    match mergeValue base ours theirs with
    | some merged =>
      match Serde.toVec merged with
      | some bytes => .merged (.inline bytes)
      | none => .needsResolution
    | none => .needsResolution
  | _, _, _ => .needsResolution

def newline : UInt8 := 10

/-- `split_lines`: each line keeps its trailing newline. -/
def splitLines : Bytes → List Bytes
  | [] => []
  | b :: rest =>
    if b = newline then [b] :: splitLines rest
    else
      match splitLines rest with
      | [] => [[b]]
      | line :: lines => (b :: line) :: lines

/-- `strip_nl`. -/
def stripNl (line : Bytes) : Bytes :=
  if line.getLast? = some newline then line.dropLast else line

/-- `append_only_merge`: `ours`, then the lines of `theirs` past the shared lines. -/
def appendOnlyMerge (_base ours theirs : Body) : MergeOutcome :=
  let oursLines := splitLines ours.bytes
  let theirsLines := splitLines theirs.bytes
  let shared := ((oursLines.zip theirsLines).takeWhile fun p => stripNl p.1 = stripNl p.2).length
  let tail := theirsLines.drop shared
  let out := ours.bytes
  let out := if tail ≠ [] ∧ out.getLast?.any (· ≠ newline) then out ++ [newline] else out
  .merged (.inline (out ++ tail.flatten))

/-- `merge`. -/
def merge [Serde] (mergeClass : MergeClass) (base ours theirs : Body) : MergeOutcome :=
  match mergeClass with
  | .appendOnly => appendOnlyMerge base ours theirs
  | .structured => structuredMerge base ours theirs
  | .opaqueBody => .needsResolution
  | .derived => .merged ours

/-! ## Where the bytes of a merge come from -/

theorem splitLines_flatten (bytes : Bytes) : (splitLines bytes).flatten = bytes := by
  fun_induction splitLines bytes with
  | case1 => rfl
  | case2 rest ih => rw [List.flatten_cons, ih]; rfl
  | case3 b rest other none ih =>
    rw [none] at ih
    simpa using ih
  | case4 b rest other line lines split ih =>
    rw [split] at ih
    simpa using ih

/-- An append-only merge is one line of text only if one of its sides is. -/
theorem appendOnlyMerge_line {base ours theirs body : Body} {line : Bytes}
    (merged : appendOnlyMerge base ours theirs = .merged body) (one : newline ∉ line)
    (same : body.bytes = line) : ours.bytes = line ∨ theirs.bytes = line := by
  cases merged
  rw [Body.bytes_inline] at same
  by_cases empty : ours.bytes = []
  · -- nothing is shared with an empty side, so all of `theirs` is the tail
    right
    simpa [empty, splitLines, splitLines_flatten] using same
  · left
    have last := List.getLast?_eq_some_getLast empty
    generalize (splitLines theirs.bytes).drop _ = tail at same
    by_cases alone : tail = []
    · simpa [alone] using same
    · exfalso
      refine one (same ▸ List.mem_append_left _ ?_)
      by_cases ends : ours.bytes.getLast empty = newline
      · rw [last, Option.any_some, if_neg (by simp [ends])]
        exact ends ▸ List.getLast_mem empty
      · rw [last, Option.any_some, if_pos ⟨alone, by simpa using ends⟩]
        exact List.mem_append_right _ (List.mem_singleton.mpr rfl)

/-- A merge is a text of one line that is no JSON only if one of its sides is. -/
theorem merge_line [Serde] {mergeClass : MergeClass} {base ours theirs body : Body} {line : Bytes}
    (one : newline ∉ line) (notJson : ∀ value bytes, Serde.toVec value = some bytes → bytes ≠ line)
    (merged : merge mergeClass base ours theirs = .merged body) (same : body.bytes = line) :
    ours.bytes = line ∨ theirs.bytes = line := by
  cases mergeClass with
  | appendOnly => exact appendOnlyMerge_line (show appendOnlyMerge base _ _ = _ from merged) one same
  | structured =>
    simp only [merge, structuredMerge] at merged
    split at merged
    · split at merged
      · split at merged
        next bytes written =>
          cases merged
          exact absurd same (notJson _ bytes written)
        · cases merged
      · cases merged
    · cases merged
  | opaqueBody => cases merged
  | derived =>
    cases merged
    exact Or.inl same

end Gonzalo.Core
