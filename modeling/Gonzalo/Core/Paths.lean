import Gonzalo.Core.Revision

/-!
# Keys as path segments

`gonzalo-core/src/paths.rs`. A component of a key becomes one segment of a path or an
object key: the unreserved bytes stay and every other byte is escaped, so that no
segment holds a separator or a dot.
-/

set_option autoImplicit false

namespace Gonzalo.Core

/-- The digits of `HEX`. -/
def hexDigit (n : UInt8) : Char :=
  if n < 10 then Char.ofNat ('0'.toNat + n.toNat) else Char.ofNat ('A'.toNat + (n.toNat - 10))

/-- `[A-Za-z0-9_-]`, as bytes. -/
def unreserved (b : UInt8) : Bool :=
  (0x41 ≤ b && b ≤ 0x5A) || (0x61 ≤ b && b ≤ 0x7A) || (0x30 ≤ b && b ≤ 0x39) || b = 0x2D || b = 0x5F

/-- How one byte of a component is spelled. -/
def escape (b : UInt8) : List Char :=
  if unreserved b then [Char.ofNat b.toNat] else ['%', hexDigit (b >>> 4), hexDigit (b &&& 0x0F)]

/-- `segment`. -/
def segment (s : String) : String := String.ofList ((asBytes s).flatMap escape)

/-- `record_components`. -/
def recordComponents (key : RecordKey) : String × String × String :=
  (segment key.ns, segment key.collection, segment key.id ++ ".json")

/-- `object_key`. -/
def objectKey (key : RecordKey) : String :=
  let components := recordComponents key
  components.1 ++ "/" ++ components.2.1 ++ "/" ++ components.2.2

end Gonzalo.Core
