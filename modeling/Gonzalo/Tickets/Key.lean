import Gonzalo.Core.Record

/-!
# Ticket keys

`record_key`, `scoped_uid` and `provider_slug` of `gonzalo-ticket/src/lib.rs`, over the
fields of a ticket that they read. The other fields are one parameter: only the encoding
of a ticket reads them. The lower casing of `str::to_lowercase` is a parameter as well.
-/

set_option autoImplicit false

namespace Gonzalo.Tickets
open Gonzalo.Core

/-- The platform a ticket comes from. -/
inductive Provider where
  | gitHub | jira | linear | gitLab | asana | azureDevOps | bugzilla
  | other (name : String)
  deriving DecidableEq, Repr

/-- `str::to_lowercase`. -/
class Lowercase where
  toLowercase : String → String

/-- A ticket: what it is keyed by, and its other fields. -/
structure Ticket (Fields : Type) where
  provider : Provider
  uid : String
  fields : Fields

def providerSlug [Lowercase] : Provider → String
  | .gitHub => "github"
  | .jira => "jira"
  | .linear => "linear"
  | .gitLab => "gitlab"
  | .asana => "asana"
  | .azureDevOps => "azure-devops"
  | .bugzilla => "bugzilla"
  | .other name => Lowercase.toLowercase name

/-- The `id` of a ticket's key: the uid, after its board where one is supplied. -/
def scopedUid (uid : String) : Option String → String
  | some board => board ++ "/" ++ uid
  | none => uid

/-- What a ticket is imported as: the provider's item under one connection. -/
structure ItemId where
  provider : Provider
  scope : Option String
  uid : String
  deriving DecidableEq, Repr

/-- The key of an item. -/
def ItemId.key [Lowercase] (self : ItemId) : RecordKey :=
  ⟨"tickets", providerSlug self.provider, scopedUid self.uid self.scope⟩

def Ticket.item {Fields : Type} (self : Ticket Fields) (scope : Option String) : ItemId :=
  ⟨self.provider, scope, self.uid⟩

/-- `record_key`. -/
def recordKey [Lowercase] {Fields : Type} (ticket : Ticket Fields) (scope : Option String) :
    RecordKey := (ticket.item scope).key

/-! ## Which items share a key -/

variable [Lowercase]

/-- The providers are one, or a custom name is spelled, up to case, like the other. -/
def SameSlug : Provider → Provider → Prop
  | .other name, .other name' => Lowercase.toLowercase name = Lowercase.toLowercase name'
  | .other name, builtin => Lowercase.toLowercase name = providerSlug builtin
  | builtin, .other name => providerSlug builtin = Lowercase.toLowercase name
  | builtin, builtin' => builtin = builtin'

/-- The scopes and uids are the same, or one scope takes in the front of the other's uid,
up to a slash. -/
def Regroups : Option String → String → Option String → String → Prop
  | none, uid, none, uid' => uid = uid'
  | some board, uid, none, uid' => uid' = board ++ "/" ++ uid
  | none, uid, some board', uid' => uid = board' ++ "/" ++ uid'
  | some board, uid, some board', uid' =>
    board = board' ∧ uid = uid' ∨
      (∃ middle, board' = board ++ "/" ++ middle ∧ uid = middle ++ "/" ++ uid') ∨
      (∃ middle, board = board' ++ "/" ++ middle ∧ uid' = middle ++ "/" ++ uid)

/-- The items are spelled alike: their providers share a slug, and their scoped uids are one
text grouped in two ways. -/
def SpelledAlike (x y : ItemId) : Prop :=
  SameSlug x.provider y.provider ∧ Regroups x.scope x.uid y.scope y.uid

theorem providerSlug_eq_iff (p q : Provider) : providerSlug p = providerSlug q ↔ SameSlug p q := by
  cases p <;> cases q <;> simp [providerSlug, SameSlug]

omit [Lowercase] in
/-- Where two texts joined with a slash agree, they are split alike, or one split moves a
piece over the slash. -/
theorem join_eq_iff (a b a' b' : String) : a ++ "/" ++ b = a' ++ "/" ++ b' ↔
    a = a' ∧ b = b' ∨ (∃ middle, a' = a ++ "/" ++ middle ∧ b = middle ++ "/" ++ b') ∨
      (∃ middle, a = a' ++ "/" ++ middle ∧ b' = middle ++ "/" ++ b) := by
  constructor
  · intro same
    have slash : "/".toList = ['/'] := rfl
    have chars := congrArg String.toList same
    simp only [String.toList_append, List.append_assoc, slash, List.singleton_append] at chars
    rcases List.append_eq_append_iff.mp chars with ⟨more, front, rest⟩ | ⟨more, front, rest⟩
    · cases more with
      | nil =>
        left
        rw [List.append_nil] at front
        exact ⟨(String.toList_inj.mp front).symm, String.toList_inj.mp (List.cons.inj rest).2⟩
      | cons slash middle =>
        obtain ⟨rfl, rest⟩ := List.cons.inj rest
        refine .inr (.inl ⟨String.ofList middle, ?_, ?_⟩) <;> rw [← String.toList_inj]
        · simpa using front
        · simpa using rest
    · cases more with
      | nil =>
        left
        rw [List.append_nil] at front
        exact ⟨String.toList_inj.mp front, (String.toList_inj.mp (List.cons.inj rest).2).symm⟩
      | cons slash middle =>
        obtain ⟨rfl, rest⟩ := List.cons.inj rest
        refine .inr (.inr ⟨String.ofList middle, ?_, ?_⟩) <;> rw [← String.toList_inj]
        · simpa using front
        · simpa using rest
  · rintro (⟨rfl, rfl⟩ | ⟨middle, rfl, rfl⟩ | ⟨middle, rfl, rfl⟩)
    · rfl
    · simp only [String.append_assoc]
    · simp only [String.append_assoc]

omit [Lowercase] in
theorem scopedUid_eq_iff (scope scope' : Option String) (uid uid' : String) :
    scopedUid uid scope = scopedUid uid' scope' ↔ Regroups scope uid scope' uid' := by
  cases scope with
  | none =>
    cases scope' with
    | none => exact Iff.rfl
    | some board' => exact Iff.rfl
  | some board =>
    cases scope' with
    | none => exact eq_comm
    | some board' => exact join_eq_iff board uid board' uid'

/-- Two items share a key exactly when they are spelled alike. -/
theorem ItemId.key_eq_iff (x y : ItemId) : x.key = y.key ↔ SpelledAlike x y := by
  simp only [ItemId.key, RecordKey.mk.injEq, true_and]
  exact and_congr (providerSlug_eq_iff x.provider y.provider) (scopedUid_eq_iff _ _ _ _)

end Gonzalo.Tickets
