import Gonzalo.Core.Revision

/-!
# Principals

`gonzalo-server/src/auth.rs`. A bearer token maps to a principal with a list of
namespaces it may read and a list it may write, where `"*"` stands for every one.
Each transport authenticates at its edge and authorizes in its handlers.
-/

set_option autoImplicit false

namespace Gonzalo.Server
open Gonzalo.Core

/-- The kind of access an operation needs on a namespace. -/
inductive Access where
  | read | write
  deriving DecidableEq, Repr

/-- `{access:?}`. -/
def Access.debug : Access → String
  | read => "Read"
  | write => "Write"

/-- An authenticated caller and its scopes. -/
structure Principal where
  name : String
  read : List String
  write : List String
  authenticated : Bool
  deriving DecidableEq, Repr

namespace Principal

/-- `Principal::new`. -/
def new (name : String) (read write : List String) : Principal := ⟨name, read, write, true⟩

/-- `Principal::admin`. -/
def admin (name : String) : Principal := new name ["*"] ["*"]

/-- `Principal::open`: the implicit identity of a daemon without auth. It does not stamp
authorship. -/
def «open» : Principal := { admin "local" with authenticated := false }

/-- `Principal::is_admin`. -/
def isAdmin (self : Principal) : Bool := self.read.any (· == "*") && self.write.any (· == "*")

/-- `Principal::allows`. -/
def allows (self : Principal) (access : Access) (ns : String) : Bool :=
  let scopes := match access with
    | .read => self.read
    | .write => self.write
  scopes.any fun s => s == "*" || s == ns

/-- `Principal::delete_author`. -/
def deleteAuthor (self : Principal) (claimed : Option Identity) : Option Identity :=
  if !self.isAdmin then some (.new self.name)
  else claimed.or (if self.authenticated then some (.new self.name) else none)

/-- An admin may read and write every namespace. -/
theorem allows_of_isAdmin {self : Principal} (admin : self.isAdmin = true) (access : Access)
    (ns : String) : self.allows access ns = true := by
  obtain ⟨reads, writes⟩ := Bool.and_eq_true_iff.mp admin
  obtain ⟨r, inRead, isStar⟩ := List.any_eq_true.mp reads
  obtain ⟨w, inWrite, isStar'⟩ := List.any_eq_true.mp writes
  cases access with
  | read => exact List.any_eq_true.mpr ⟨r, inRead, by simp [isStar]⟩
  | write => exact List.any_eq_true.mpr ⟨w, inWrite, by simp [isStar']⟩

/-- A principal with access to `"*"` has it everywhere. -/
theorem allows_of_wildcard {self : Principal} {access : Access}
    (wildcard : self.allows access "*" = true) (ns : String) : self.allows access ns = true := by
  unfold allows at wildcard ⊢
  obtain ⟨s, listed, isStar⟩ := List.any_eq_true.mp wildcard
  exact List.any_eq_true.mpr ⟨s, listed, by simp_all⟩

@[simp] theorem isAdmin_open : Principal.open.isAdmin = true := rfl

@[simp] theorem allows_open (access : Access) (ns : String) :
    Principal.open.allows access ns = true := allows_of_isAdmin isAdmin_open access ns

end Principal

/-- The token registry. Disabled means that no auth was configured. -/
inductive Auth where
  | disabled
  | enabled (byToken : Std.ExtTreeMap String Principal compare)

/-- `Auth::authenticate`. -/
def Auth.authenticate (self : Auth) (token : Option String) : Option Principal :=
  match self with
  | disabled => some .open
  | enabled byToken => token.bind (byToken[·]?)

end Gonzalo.Server
