import Gonzalo.Core.Segments
import Gonzalo.Domain.Fleet

/-!
# Fleet record keys

`gonzalo-domain/src/fleet/keys.rs` and the keys that `records.rs` and `audit.rs` build from
it. Components are escaped and joined with `:`; an audit id joins the time and a nonce
with `-`.
-/

set_option autoImplicit false

namespace Gonzalo.Domain
open Gonzalo.Core (RecordKey asBytes splitAt)

def fleetAuditNamespace : String := "fleet-audit"
def auditEntriesCollection : String := "entries"

/-- Why a fleet record key could not be built. -/
inductive FleetKeyError where
  | invalidPersonId (id : String)
  | invalidNonce (nonce : String)
  | negativeTimestamp (at_ : Int64)
  | emptyComponent (component : String)
  deriving DecidableEq, Repr

/-! ## Ids -/

/-- `str::replace` of a character. -/
def replaceChar (s : String) (c : Char) (by_ : String) : String :=
  String.ofList (s.toList.flatMap fun d => if d = c then by_.toList else [d])

def escape (component : String) : String :=
  replaceChar (replaceChar component '%' "%25") ':' "%3A"

def isIdChar (c : Char) : Bool := c.isAlphanum || c = '_' || c = '-'

def nonEmpty (value component : String) : Except FleetKeyError Unit :=
  if value = "" then .error (.emptyComponent component) else .ok ()

def validatePersonId (id : String) : Except FleetKeyError Unit :=
  if 1 ≤ (asBytes id).length ∧ (asBytes id).length ≤ 64 ∧ id.toList.all isIdChar then .ok ()
  else .error (.invalidPersonId id)

def validateNonce (nonce : String) : Except FleetKeyError Unit :=
  if 1 ≤ (asBytes nonce).length ∧ (asBytes nonce).length ≤ 32 ∧ nonce.toList.all isIdChar then
    .ok ()
  else .error (.invalidNonce nonce)

def authenticatorSegment : Authenticator → Except FleetKeyError String
  | .discord => .ok "discord"
  | .slack => .ok "slack"
  | .teams => .ok "teams"
  | .oidc issuer => do
    nonEmpty issuer "issuer"
    return "oidc:" ++ escape issuer
  | .other name => do
    nonEmpty name "authenticator name"
    return "other:" ++ escape name

def scopeSegment : GrantScope → Except FleetKeyError String
  | .fleet => .ok "fleet"
  | .workspace workspace => do
    nonEmpty workspace "workspace"
    return "workspace:" ++ escape workspace

/-- `<authenticator>:<subject>`. -/
def bindingId (authenticator : Authenticator) (subject : String) : Except FleetKeyError String := do
  nonEmpty subject "subject"
  return (← authenticatorSegment authenticator) ++ ":" ++ escape subject

/-- `<person_id>:<scope>`. -/
def grantId (person : String) (scope : GrantScope) : Except FleetKeyError String := do
  validatePersonId person
  return person ++ ":" ++ (← scopeSegment scope)

/-- `<provider>:<tenant>:<channel>`. -/
def channelId (provider tenant channel : String) : Except FleetKeyError String := do
  nonEmpty provider "provider"
  nonEmpty tenant "tenant"
  nonEmpty channel "channel id"
  return escape provider ++ ":" ++ escape tenant ++ ":" ++ escape channel

/-- `{at:013}` of a number that is not negative. -/
def zeroPadded (n : Nat) : String :=
  String.ofList (List.replicate (13 - (Nat.toDigits 10 n).length) '0' ++ Nat.toDigits 10 n)

/-- `<at_ms zero-padded to 13 digits>-<nonce>`. -/
def auditId (at_ : Int64) (nonce : String) : Except FleetKeyError String := do
  if at_ < 0 then throw (.negativeTimestamp at_)
  validateNonce nonce
  return zeroPadded at_.toInt.toNat ++ "-" ++ nonce

/-! ## Keys -/

/-- What a fleet record is looked up by. -/
inductive FleetIdentity where
  | person (id : String)
  | identityBinding (authenticator : Authenticator) (subject : String)
  | roleGrant (person : String) (scope : GrantScope)
  | channelConfig (provider tenant channel : String)
  | auditEntry (at_ : Int64) (nonce : String)
  deriving DecidableEq, Repr

/-- `Person::key`, `IdentityBinding::key_for`, `RoleGrant::key_for`,
`ChannelConfig::key_for` and `AuditEntry::key`. -/
def FleetIdentity.key : FleetIdentity → Except FleetKeyError RecordKey
  | .person id => do
    validatePersonId id
    return ⟨fleetNamespace, peopleCollection, id⟩
  | .identityBinding authenticator subject => do
    return ⟨fleetNamespace, identityBindingsCollection, ← bindingId authenticator subject⟩
  | .roleGrant holder scope => do
    return ⟨fleetNamespace, roleGrantsCollection, ← grantId holder scope⟩
  | .channelConfig provider tenant channel => do
    return ⟨fleetNamespace, channelsCollection, ← channelId provider tenant channel⟩
  | .auditEntry at_ nonce => do
    return ⟨fleetAuditNamespace, auditEntriesCollection, ← auditId at_ nonce⟩

/-! ## Escaping -/

/-- What one character is escaped to. -/
def escapeChar (c : Char) : List Char :=
  if c = '%' then ['%', '2', '5'] else if c = ':' then ['%', '3', 'A'] else [c]

/-- The second replacement does not touch what the first one wrote. -/
theorem escape_toList (s : String) : (escape s).toList = s.toList.flatMap escapeChar := by
  simp only [escape, replaceChar, String.toList_ofList]
  rw [List.flatMap_assoc]
  congr 1
  funext c
  by_cases percent : c = '%'
  · simp [percent, escapeChar]
  · by_cases colon : c = ':' <;> simp [percent, colon, escapeChar]

/-- Read an escaped component back. -/
def unescape : List Char → List Char
  | '%' :: '2' :: '5' :: rest => '%' :: unescape rest
  | '%' :: '3' :: 'A' :: rest => ':' :: unescape rest
  | c :: rest => c :: unescape rest
  | [] => []

theorem unescape_plain {c : Char} (plain : c ≠ '%') (rest : List Char) :
    unescape (c :: rest) = c :: unescape rest := by
  rw [unescape.eq_def]
  split <;> simp_all

theorem unescape_escape (s : String) : unescape (escape s).toList = s.toList := by
  rw [escape_toList]
  induction s.toList with
  | nil => rfl
  | cons c rest ih =>
    rw [List.flatMap_cons, escapeChar]
    split
    next percent =>
      rw [percent]
      exact congrArg _ ih
    next plain =>
      split
      next colon =>
        rw [colon]
        exact congrArg _ ih
      next => rw [List.singleton_append, unescape_plain plain, ih]

theorem escape_injective : Function.Injective escape := by
  intro a b same
  rw [← String.toList_inj, ← unescape_escape a, same, unescape_escape]

theorem colon_notMem_escape (s : String) : ':' ∉ (escape s).toList := by
  rw [escape_toList, List.mem_flatMap]
  rintro ⟨c, -, colon⟩
  rw [escapeChar] at colon
  split at colon
  · simp at colon
  · split at colon
    · simp at colon
    next other => exact other (List.mem_singleton.mp colon).symm

/-! ## Joined fields -/

/-- Fields that hold no colon are what the joined text splits into. -/
theorem splitAt_intercalate {fields : List String} (plain : ∀ f ∈ fields, ':' ∉ f.toList)
    (nonempty : fields ≠ []) : splitAt (":".intercalate fields) ':' = fields :=
  Core.splitAt_intercalate (by simp) plain nonempty

/-- The fields of an authenticator segment. -/
def authenticatorFields : Authenticator → List String
  | .discord => ["discord"]
  | .slack => ["slack"]
  | .teams => ["teams"]
  | .oidc issuer => ["oidc", escape issuer]
  | .other name => ["other", escape name]

def scopeFields : GrantScope → List String
  | .fleet => ["fleet"]
  | .workspace workspace => ["workspace", escape workspace]

theorem authenticatorFields_injective : Function.Injective authenticatorFields := by
  intro a b same
  cases a <;> cases b <;> simp [authenticatorFields, escape_injective.eq_iff] at same ⊢
  all_goals exact same

theorem scopeFields_injective : Function.Injective scopeFields := by
  intro a b same
  cases a <;> cases b <;> simp [scopeFields, escape_injective.eq_iff] at same ⊢
  exact same

theorem colon_notMem_authenticatorFields (authenticator : Authenticator) :
    ∀ f ∈ authenticatorFields authenticator, ':' ∉ f.toList := by
  cases authenticator <;> simp [authenticatorFields, colon_notMem_escape]

theorem colon_notMem_scopeFields (scope : GrantScope) :
    ∀ f ∈ scopeFields scope, ':' ∉ f.toList := by
  cases scope <;> simp [scopeFields, colon_notMem_escape]

/-! ## What the ids spell -/

theorem nonEmpty_bind_ok {α : Type} {value component : String}
    {rest : Unit → Except FleetKeyError α} {result : α}
    (accepted : (nonEmpty value component >>= rest) = .ok result) : rest () = .ok result := by
  rw [nonEmpty] at accepted
  split at accepted
  · cases accepted
  · exact accepted

theorem validatePersonId_bind_ok {α : Type} {id : String} {rest : Unit → Except FleetKeyError α}
    {result : α} (accepted : (validatePersonId id >>= rest) = .ok result) :
    id.toList.all isIdChar ∧ rest () = .ok result := by
  rw [validatePersonId] at accepted
  split at accepted
  next valid => exact ⟨valid.2.2, accepted⟩
  next => cases accepted

theorem validateNonce_bind_ok {α : Type} {nonce : String} {rest : Unit → Except FleetKeyError α}
    {result : α} (accepted : (validateNonce nonce >>= rest) = .ok result) :
    rest () = .ok result := by
  rw [validateNonce] at accepted
  split at accepted
  · exact accepted
  · cases accepted

theorem colon_notMem_id {id : String} (valid : id.toList.all isIdChar) : ':' ∉ id.toList := by
  intro member
  exact absurd (List.all_eq_true.mp valid ':' member) (by decide)

theorem authenticatorSegment_ok {authenticator : Authenticator} {seg : String}
    (accepted : authenticatorSegment authenticator = .ok seg) :
    seg = ":".intercalate (authenticatorFields authenticator) := by
  cases authenticator with
  | oidc issuer =>
    cases nonEmpty_bind_ok accepted
    simp [authenticatorFields]
  | other name =>
    cases nonEmpty_bind_ok accepted
    simp [authenticatorFields]
  | _ =>
    cases accepted
    rfl

theorem scopeSegment_ok {scope : GrantScope} {seg : String}
    (accepted : scopeSegment scope = .ok seg) : seg = ":".intercalate (scopeFields scope) := by
  cases scope with
  | fleet =>
    cases accepted
    rfl
  | workspace workspace =>
    cases nonEmpty_bind_ok accepted
    simp [scopeFields]

theorem authenticatorFields_ne_nil (authenticator : Authenticator) :
    authenticatorFields authenticator ≠ [] := by
  cases authenticator <;> simp [authenticatorFields]

theorem scopeFields_ne_nil (scope : GrantScope) : scopeFields scope ≠ [] := by
  cases scope <;> simp [scopeFields]

/-- A binding id splits into the fields of its authenticator and the subject. -/
theorem bindingId_fields {authenticator : Authenticator} {subject id : String}
    (accepted : bindingId authenticator subject = .ok id) :
    splitAt id ':' = authenticatorFields authenticator ++ [escape subject] := by
  have made := nonEmpty_bind_ok accepted
  cases segment : authenticatorSegment authenticator with
  | error e =>
    rw [segment] at made
    cases made
  | ok seg =>
    rw [segment] at made
    cases made
    have joined : seg ++ ":" ++ escape subject =
        ":".intercalate (authenticatorFields authenticator ++ [escape subject]) := by
      rw [String.intercalate_append_of_ne_nil (authenticatorFields_ne_nil authenticator)
        (List.cons_ne_nil _ _), ← authenticatorSegment_ok segment, String.intercalate_singleton]
    rw [joined]
    apply splitAt_intercalate
    · intro f member
      rcases List.mem_append.mp member with own | last
      · exact colon_notMem_authenticatorFields authenticator f own
      · rw [List.mem_singleton.mp last]
        exact colon_notMem_escape subject
    · simp

/-- A grant id splits into the person and the fields of its scope. -/
theorem grantId_fields {person id : String} {scope : GrantScope}
    (accepted : grantId person scope = .ok id) : splitAt id ':' = person :: scopeFields scope := by
  obtain ⟨valid, made⟩ := validatePersonId_bind_ok accepted
  cases segment : scopeSegment scope with
  | error e =>
    rw [segment] at made
    cases made
  | ok seg =>
    rw [segment] at made
    cases made
    have joined : person ++ ":" ++ seg = ":".intercalate (person :: scopeFields scope) := by
      rw [String.intercalate_cons_of_ne_nil (scopeFields_ne_nil scope), ← scopeSegment_ok segment]
    rw [joined]
    apply splitAt_intercalate
    · intro f member
      rcases List.mem_cons.mp member with rfl | own
      · exact colon_notMem_id valid
      · exact colon_notMem_scopeFields scope f own
    · simp

/-- A channel id splits into its provider, tenant and channel. -/
theorem channelId_fields {provider tenant channel id : String}
    (accepted : channelId provider tenant channel = .ok id) :
    splitAt id ':' = [escape provider, escape tenant, escape channel] := by
  rw [channelId] at accepted
  have some_provider := nonEmpty_bind_ok accepted
  have some_tenant := nonEmpty_bind_ok some_provider
  have some_channel := nonEmpty_bind_ok some_tenant
  rw [← Except.ok.inj some_channel]
  have joined : escape provider ++ ":" ++ escape tenant ++ ":" ++ escape channel =
      ":".intercalate [escape provider, escape tenant, escape channel] := by
    simp [String.append_assoc]
  rw [joined]
  apply splitAt_intercalate
  · simp [colon_notMem_escape]
  · simp

/-! ## Audit ids -/

theorem ofDigitChars_zeros (k : Nat) (digits : List Char) :
    Nat.ofDigitChars 10 (List.replicate k '0' ++ digits) 0 = Nat.ofDigitChars 10 digits 0 := by
  induction k with
  | zero => rfl
  | succ k ih =>
    rw [List.replicate_succ, List.cons_append, Nat.ofDigitChars_cons]
    exact ih

theorem zeroPadded_injective : Function.Injective zeroPadded := by
  intro m n same
  have digits := congrArg (fun s => Nat.ofDigitChars 10 s.toList 0) same
  simp only [zeroPadded, String.toList_ofList, ofDigitChars_zeros,
    Nat.ofDigitChars_ten_toDigits] at digits
  exact digits

theorem dash_notMem_zeroPadded (n : Nat) : '-' ∉ (zeroPadded n).toList := by
  rw [zeroPadded, String.toList_ofList, List.mem_append]
  rintro (zero | digit)
  · exact absurd (List.eq_of_mem_replicate zero) (by decide)
  · exact absurd (Nat.isDigit_of_mem_toDigits (by decide) (by decide) digit) (by decide)

/-- What stands before the first `c`, and what after it. -/
theorem append_cons_inj {c : Char} {a a' b b' : List Char} (before : c ∉ a) (before' : c ∉ a')
    (same : a ++ c :: b = a' ++ c :: b') : a = a' ∧ b = b' := by
  have first : ∀ {x y : List Char}, c ∉ x → (x ++ c :: y).takeWhile (· ≠ c) = x := by
    intro x y plain
    rw [List.takeWhile_append_of_pos, List.takeWhile_cons_of_neg (by simp), List.append_nil]
    intro d member
    simpa using fun equal : d = c => plain (equal ▸ member)
  have starts : a = a' := by rw [← first (y := b) before, same, first before']
  rw [starts] at same
  exact ⟨starts, (List.cons.inj (List.append_cancel_left same)).2⟩

theorem auditId_ok {at_ : Int64} {nonce id : String} (accepted : auditId at_ nonce = .ok id) :
    0 ≤ at_.toInt ∧ id = zeroPadded at_.toInt.toNat ++ "-" ++ nonce := by
  rw [auditId] at accepted
  split at accepted
  · cases accepted
  next late =>
    have made := validateNonce_bind_ok accepted
    refine ⟨?_, (Except.ok.inj made).symm⟩
    rw [Int64.lt_iff_toInt_lt] at late
    exact not_lt.mp late

theorem auditId_injective {at_ at' : Int64} {nonce nonce' id : String}
    (accepted : auditId at_ nonce = .ok id) (accepted' : auditId at' nonce' = .ok id) :
    at_ = at' ∧ nonce = nonce' := by
  obtain ⟨after, made⟩ := auditId_ok accepted
  obtain ⟨after', made'⟩ := auditId_ok accepted'
  have same := congrArg String.toList (made.symm.trans made')
  simp only [String.toList_append, List.append_assoc] at same
  obtain ⟨times, nonces⟩ := append_cons_inj (dash_notMem_zeroPadded _) (dash_notMem_zeroPadded _) same
  have equal := zeroPadded_injective (String.toList_inj.mp times)
  constructor
  · apply Int64.toInt_inj.mp
    omega
  · exact String.toList_inj.mp nonces

/-! ## Keys do not collide -/

/-- The id of the record, within its collection. -/
def FleetIdentity.id : FleetIdentity → Except FleetKeyError String
  | .person id => do
    validatePersonId id
    return id
  | .identityBinding authenticator subject => bindingId authenticator subject
  | .roleGrant holder scope => grantId holder scope
  | .channelConfig provider tenant channel => channelId provider tenant channel
  | .auditEntry at_ nonce => auditId at_ nonce

/-- The collection of the record. -/
def FleetIdentity.collection : FleetIdentity → String
  | .person _ => peopleCollection
  | .identityBinding .. => identityBindingsCollection
  | .roleGrant .. => roleGrantsCollection
  | .channelConfig .. => channelsCollection
  | .auditEntry .. => auditEntriesCollection

theorem bind_accepted {α β : Type} {x : Except FleetKeyError α} {f : α → Except FleetKeyError β}
    {b : β} (accepted : (x >>= f) = .ok b) : ∃ a, x = .ok a ∧ f a = .ok b := by
  cases x with
  | error e => cases accepted
  | ok a => exact ⟨a, rfl, accepted⟩

theorem FleetIdentity.key_ok {self : FleetIdentity} {key : RecordKey}
    (accepted : self.key = .ok key) :
    self.id = .ok key.id ∧ key.collection = self.collection := by
  cases self with
  | person id =>
    obtain ⟨valid, checked, made⟩ := bind_accepted accepted
    rw [← Except.ok.inj made]
    refine ⟨?_, rfl⟩
    rw [FleetIdentity.id, checked]
    rfl
  | _ =>
    obtain ⟨id, valid, made⟩ := bind_accepted accepted
    rw [← Except.ok.inj made]
    exact ⟨valid, rfl⟩

/-- Within one collection an id is accepted for one identity only. -/
theorem FleetIdentity.id_injective {a b : FleetIdentity} {id : String}
    (collection : a.collection = b.collection) (accepted : a.id = .ok id)
    (accepted' : b.id = .ok id) : a = b := by
  cases a with
  | person holder =>
    cases b with
    | person holder' =>
      obtain ⟨_, -, made⟩ := bind_accepted accepted
      obtain ⟨_, -, made'⟩ := bind_accepted accepted'
      rw [Except.ok.inj made, Except.ok.inj made']
    | _ => exact absurd collection (of_decide_eq_false rfl)
  | identityBinding authenticator subject =>
    cases b with
    | identityBinding authenticator' subject' =>
      have own : bindingId authenticator subject = .ok id := accepted
      have other : bindingId authenticator' subject' = .ok id := accepted'
      have fields := bindingId_fields own
      rw [bindingId_fields other] at fields
      obtain ⟨segments, subjects⟩ := List.append_inj' fields (by simp only [List.length_singleton])
      rw [authenticatorFields_injective segments, escape_injective (List.cons.inj subjects).1]
    | _ => exact absurd collection (of_decide_eq_false rfl)
  | roleGrant holder scope =>
    cases b with
    | roleGrant holder' scope' =>
      have own : grantId holder scope = .ok id := accepted
      have other : grantId holder' scope' = .ok id := accepted'
      have fields := grantId_fields own
      rw [grantId_fields other] at fields
      obtain ⟨holders, scopes⟩ := List.cons.inj fields
      rw [holders, scopeFields_injective scopes]
    | _ => exact absurd collection (of_decide_eq_false rfl)
  | channelConfig provider tenant channel =>
    cases b with
    | channelConfig provider' tenant' channel' =>
      have own : channelId provider tenant channel = .ok id := accepted
      have other : channelId provider' tenant' channel' = .ok id := accepted'
      have fields := channelId_fields own
      rw [channelId_fields other] at fields
      simp only [List.cons.injEq, escape_injective.eq_iff, and_true] at fields
      obtain ⟨rfl, rfl, rfl⟩ := fields
      rfl
    | _ => exact absurd collection (of_decide_eq_false rfl)
  | auditEntry at_ nonce =>
    cases b with
    | auditEntry at' nonce' =>
      obtain ⟨rfl, rfl⟩ := auditId_injective accepted accepted'
      rfl
    | _ => exact absurd collection (of_decide_eq_false rfl)

/-- No two identities of fleet records are keyed alike: a key that the constructors accept
for one is not the key of any other. -/
theorem fleetKey_injective {a b : FleetIdentity} {key : RecordKey} (accepted : a.key = .ok key)
    (accepted' : b.key = .ok key) : a = b := by
  obtain ⟨id, collection⟩ := FleetIdentity.key_ok accepted
  obtain ⟨id', collection'⟩ := FleetIdentity.key_ok accepted'
  exact FleetIdentity.id_injective (collection.symm.trans collection') id id'

/-- An issuer with a colon, and a subject with one, are told apart. -/
theorem oidc_key_injective :
    ∃ key, (FleetIdentity.identityBinding (.oidc "https://a:b") "c").key = .ok key ∧
      ∀ identity : FleetIdentity, identity.key = .ok key →
        identity = .identityBinding (.oidc "https://a:b") "c" :=
  ⟨⟨"fleet", "identity-bindings", "oidc:https%3A//a%3Ab:c"⟩, by decide,
    fun _ accepted => fleetKey_injective accepted (by decide)⟩

end Gonzalo.Domain
