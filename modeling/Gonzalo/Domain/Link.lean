import Gonzalo.Domain.Fleet

/-!
# One-time link tokens

`gonzalo-domain/src/fleet/link.rs`, with `RecordCodec` of `codec.rs` for this type. How
`serde_json` spells a token is a parameter.
-/

set_option autoImplicit false

namespace Gonzalo.Domain
open Gonzalo.Core

/-- `LINK_TOKEN_HASH_DOMAIN`. -/
def linkTokenHashDomain : Bytes := asBytes "gonzalo:link-token:v1"

/-- `LinkSecret`: the 32 random bytes of a token. -/
structure LinkSecret where
  bytes : Bytes
  length : bytes.length = 32

/-- `LinkSecret::hash`. -/
def LinkSecret.hash [Blake3] (self : LinkSecret) : String :=
  (ContentHash.of (linkTokenHashDomain ++ self.bytes)).text

/-- Who redeemed a token, into which binding, and when. -/
structure Consumption where
  person : String
  binding : RecordKey
  at_ : Int64
  deriving DecidableEq

/-- A one-time, expiring token that lets a person claim an account. -/
structure LinkToken where
  tokenHash : String
  role : FleetRole
  scope : GrantScope
  person : Option String
  mintedBy : FleetActor
  mintedAt : Int64
  expiresAt : Int64
  consumed : Option Consumption
  deriving DecidableEq

/-- Why a link token could not be redeemed. -/
inductive RedeemError where
  | wrongSecret | expired | alreadyConsumed | personMismatch
  deriving DecidableEq, Repr

/-- `serde_json` on link tokens. -/
class TokenSerde where
  toVec : LinkToken → Bytes
  fromSlice : Bytes → Except String LinkToken

namespace LinkToken

/-- `LinkToken::new`. -/
def new [Blake3] (secret : LinkSecret) (role : FleetRole) (scope : GrantScope)
    (person : Option String) (mintedBy : FleetActor) (mintedAt expiresAt : Int64) : LinkToken where
  tokenHash := secret.hash
  role := role
  scope := scope
  person := person
  mintedBy := mintedBy
  mintedAt := mintedAt
  expiresAt := expiresAt
  consumed := none

/-- `LinkToken::key`. -/
def key (self : LinkToken) : RecordKey := ⟨fleetNamespace, linkTokensCollection, self.tokenHash⟩

/-- `LinkToken::redeem`. -/
def redeem [Blake3] (self : LinkToken) (secret : LinkSecret) (person : String)
    (binding : RecordKey) (nowMs : Int64) : Except RedeemError LinkToken :=
  if secret.hash ≠ self.tokenHash then .error .wrongSecret
  else if self.expiresAt ≤ nowMs then .error .expired
  else if self.consumed.isSome then .error .alreadyConsumed
  else if self.person.any (· ≠ person) then .error .personMismatch
  else .ok { self with consumed := some ⟨person, binding, nowMs⟩ }

/-- `RecordCodec::to_body`. -/
def toBody [TokenSerde] (self : LinkToken) : Body := .inline (TokenSerde.toVec self)

/-- `RecordCodec::from_body`. -/
def fromBody [TokenSerde] : Body → Except CoreError LinkToken
  | .inline bytes => (TokenSerde.fromSlice bytes).mapError .serde
  | .blob _ _ => .error (.backend "cannot decode a blob-backed body without a BlobStore")

theorem fromBody_toBody [TokenSerde] {self : LinkToken}
    (roundTrip : TokenSerde.fromSlice (TokenSerde.toVec self) = .ok self) :
    fromBody self.toBody = .ok self := by
  rw [toBody, fromBody, roundTrip]
  rfl

/-- A redemption takes an unconsumed token to one that says by whom it was consumed. -/
theorem redeem_ok [Blake3] {self redeemed : LinkToken} {secret : LinkSecret} {person : String}
    {binding : RecordKey} {nowMs : Int64}
    (ran : self.redeem secret person binding nowMs = .ok redeemed) :
    self.consumed = none ∧
      redeemed = { self with consumed := some ⟨person, binding, nowMs⟩ } := by
  unfold redeem at ran
  split_ifs at ran with wrong expired taken other
  cases ran
  exact ⟨by simpa using taken, rfl⟩

end LinkToken

end Gonzalo.Domain
