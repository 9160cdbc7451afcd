import Gonzalo.Core.Revision

/-!
# Code graphs

`gonzalo-graph/src/model.rs`. A slice holds the symbols a file defines, the references
found in it and the names it imports, none of them with a path: the path is attached
when a view is assembled. `usize` is `UInt64`, as on a 64-bit target.
-/

set_option autoImplicit false

namespace Gonzalo.Graph

/-- What kind of item a symbol is. -/
inductive SymbolKind where
  | function | struct | enum | trait | impl | module | const | static | typeAlias | «class»
  | interface
  deriving DecidableEq, Repr

/-- `SymbolKind::as_str`. -/
def SymbolKind.asStr : SymbolKind → String
  | function => "function"
  | struct => "struct"
  | enum => "enum"
  | trait => "trait"
  | impl => "impl"
  | module => "module"
  | const => "const"
  | static => "static"
  | typeAlias => "type_alias"
  | «class» => "class"
  | interface => "interface"

/-- A defined symbol with its lines in the file. -/
structure Symbol where
  name : String
  kind : SymbolKind
  startLine : UInt64
  endLine : UInt64
  owner : Option String
  deriving DecidableEq, Repr

/-- What a reference's `from` names. -/
inductive FromScope where
  | function | module
  deriving DecidableEq, Repr

/-- The derived order of `FromScope`. -/
instance : LinearOrder FromScope :=
  LinearOrder.lift' (fun scope => decide (scope = .module)) fun a b same => by
    cases a <;> cases b <;> simp at same ⊢

/-- `FromScope::as_str`. -/
def FromScope.asStr : FromScope → String
  | function => "function"
  | module => "module"

/-- `FromScope::from_str_or_function`. -/
def FromScope.fromStrOrFunction (raw : String) : FromScope :=
  if raw = "module" then module else function

@[simp] theorem FromScope.fromStrOrFunction_asStr (self : FromScope) :
    fromStrOrFunction self.asStr = self := by
  cases self <;> rfl

/-- The syntactic shape of a call site. -/
inductive RefKind where
  | free | method | value
  deriving DecidableEq, Repr

/-- `RefKind::as_str`. -/
def RefKind.asStr : RefKind → String
  | free => "free"
  | method => "method"
  | value => "value"

/-- `RefKind::from_str_or_free`. -/
def RefKind.fromStrOrFree (raw : String) : RefKind :=
  if raw = "method" then method else if raw = "value" then value else free

@[simp] theorem RefKind.fromStrOrFree_asStr (self : RefKind) : fromStrOrFree self.asStr = self := by
  cases self <;> rfl

theorem RefKind.asStr_eq_value (self : RefKind) : self.asStr = "value" ↔ self = value := by
  cases self <;> decide

/-- A reference by name from within `fromName`. -/
structure Reference where
  name : String
  fromName : Option String
  line : UInt64
  kind : RefKind
  qualifier : Option String
  fromScope : FromScope
  deriving DecidableEq, Repr

/-- A name brought into a file's scope. -/
structure Import where
  name : String
  path : List String
  depth : UInt64
  line : UInt64
  deriving DecidableEq, Repr

/-- `Import::brings_whole_file`. -/
def Import.bringsWholeFile (self : Import) : Bool := self.name = ""

/-- A query result with the path it was found under. -/
structure Located (α : Type) where
  path : String
  item : α
  deriving DecidableEq, Repr

/-- The slice of one file. -/
structure CodeGraph where
  symbols : List Symbol
  references : List Reference
  imports : List Import
  deriving DecidableEq, Repr

end Gonzalo.Graph
