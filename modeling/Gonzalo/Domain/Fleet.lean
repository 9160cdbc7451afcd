import Gonzalo.Core.Record

/-!
# Fleet access-control records

The types of `gonzalo-domain/src/fleet/mod.rs` that several records share.
-/

set_option autoImplicit false

namespace Gonzalo.Domain

def fleetNamespace : String := "fleet"
def peopleCollection : String := "people"
def identityBindingsCollection : String := "identity-bindings"
def roleGrantsCollection : String := "role-grants"
def channelsCollection : String := "channels"
def linkTokensCollection : String := "link-tokens"

/-- A fleet role, ordered `viewer < operator < admin`. -/
inductive FleetRole where
  | viewer | operator | admin
  deriving DecidableEq, Repr

/-- Where a role grant or link token applies. -/
inductive GrantScope where
  | fleet
  | workspace (name : String)
  deriving DecidableEq, Repr

/-- The system that authenticated an external account. -/
inductive Authenticator where
  | discord | slack | teams
  | oidc (issuer : String)
  | other (name : String)
  deriving DecidableEq, Repr

/-- Who did something: a person, an account not yet linked to one, or a service. -/
inductive FleetActor where
  | person (id : String)
  | unlinked (authenticator : Authenticator) (subject : String)
  | service (name : String)
  deriving DecidableEq, Repr

end Gonzalo.Domain
