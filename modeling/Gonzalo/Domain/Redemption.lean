import Gonzalo.Core.AncestorCap
import Gonzalo.Core.QuietRuns
import Gonzalo.Core.StandingConflict
import Gonzalo.Domain.Link

/-!
# A link token is redeemed once

Redeemers at any replica read the token's record, call `LinkToken::redeem` and put the
result with the revision they read; syncs run in between. At every replica the record is
`Minted` or `Redeemed`. A redemption takes the first to the second, so does a sync, and
nothing takes the second anywhere: its revision is newer by one, and no record lists such
a revision as an ancestor.
-/

set_option autoImplicit false

namespace Gonzalo.Domain
open Gonzalo.Core Gonzalo.Lib

section Redemption

variable [Blake3] [TokenSerde]

/-- What a redeemer puts: its token's record read, redeemed with any secret, party, binding
and time. It notes the consumption. -/
def Redeems {σ ι ρ : Type} : Edited.Edit σ ι ρ Consumption := fun _ prev body note =>
  ∃ token secret person binding nowMs redeemed,
    LinkToken.fromBody prev.body = .ok token ∧
    token.redeem secret person binding nowMs = .ok redeemed ∧
    body = redeemed.toBody ∧ redeemed.consumed = some note

/-- By whom and when a stored token was consumed, if it was. -/
def consumptionOf (r : Record) : Option Consumption :=
  match LinkToken.fromBody r.body with
  | .ok token => token.consumed
  | .error _ => none

omit [Blake3] in
theorem consumptionOf_token {r : Record} {token : LinkToken}
    (roundTrip : TokenSerde.fromSlice (TokenSerde.toVec token) = .ok token)
    (stores : r.body = token.toBody) : consumptionOf r = token.consumed := by
  rw [consumptionOf, stores, LinkToken.fromBody_toBody roundTrip]

/-- The unredeemed record everything starts from: it lists no revision that is newer by one. -/
structure Minted (first : Revision) (r : Record) : Prop where
  kind : r.kind = .linkToken
  revision : r.revision = first
  unconsumed : consumptionOf r = none
  ancestors : ∀ x ∈ r.ancestors, x.counter ≠ first.counter + 1

structure Redeemed (first : Revision) (r : Record) : Prop where
  kind : r.kind = .linkToken
  counter : r.revision.counter = first.counter + 1
  hash : r.revision.hash = .of r.body.bytes
  token : ∃ token : LinkToken, r.body = token.toBody ∧ token.consumed.isSome
  ancestors : ∀ x ∈ r.ancestors, x.counter ≠ first.counter + 1

/-- What a replica may hold. -/
def Fits (first : Revision) (r : Record) : Prop := Minted first r ∨ Redeemed first r

variable {first : Revision}

omit [Blake3] [TokenSerde] in
theorem counter_ne_next (n : UInt64) : n ≠ n + 1 := by grind

theorem Fits.kind {r : Record} (fits : Fits first r) : r.kind = .linkToken :=
  fits.elim Minted.kind Redeemed.kind

theorem Fits.live {r : Record} (fits : Fits first r) : r.isTombstone = false := by
  rw [Record.isTombstone, fits.kind]
  rfl

theorem Fits.ancestors {r : Record} (fits : Fits first r) :
    ∀ x ∈ r.ancestors, x.counter ≠ first.counter + 1 :=
  fits.elim Minted.ancestors Redeemed.ancestors

/-- A record whose revision is not newer by one is not redeemed yet. -/
theorem Fits.minted {r : Record} (fits : Fits first r)
    (old : r.revision.counter ≠ first.counter + 1) : Minted first r :=
  fits.resolve_right fun redeemed => old redeemed.counter

theorem Fits.minted_of_revision {r : Record} (fits : Fits first r) (is : r.revision = first) :
    Minted first r := fits.minted (is ▸ counter_ne_next _)

/-- What is ahead of another record is redeemed, and the other is not. -/
theorem Fits.of_ahead {x y : Record} (fitsX : Fits first x) (fitsY : Fits first y)
    (apart : x.revision ≠ y.revision) (listed : y.revision ∈ x.ancestors) :
    Redeemed first x ∧ Minted first y := by
  have minted := fitsY.minted (fitsX.ancestors _ listed)
  refine ⟨fitsX.resolve_left fun mintedX => apart ?_, minted⟩
  rw [mintedX.revision, minted.revision]

/-- A redeemed record stays one when it is filed over an unredeemed one. -/
theorem Redeemed.rawRecord {x old : Record} (redeemed : Redeemed first x)
    (minted : Minted first old) (cap : Nat) : Redeemed first (rawRecord (some old) x cap) := by
  refine ⟨redeemed.kind, redeemed.counter, redeemed.hash, redeemed.token, fun r member => ?_⟩
  obtain ⟨-, listed | ⟨_, is, inherited⟩⟩ := mem_foldAncestors member
  · exact redeemed.ancestors r listed
  · cases is
    rcases List.mem_cons.mp inherited with rfl | inherited
    · rw [minted.revision]
      exact counter_ne_next _
    · exact minted.ancestors r inherited

/-- Two records of link tokens are never reconciled. -/
theorem not_reconciles [Serde] {x y rec : Record} (fitsX : Fits first x) :
    ¬ Reconciles x y rec := by
  rintro (⟨dead, -⟩ | ⟨-, -, base, body, merged, -⟩)
  · rw [fitsX.live] at dead
    cases dead
  · rw [fitsX.kind] at merged
    cases merged

/-! ## Steps -/

section Steps

variable {σ ι ρ : Type} [DecidableEq σ] {key : RecordKey}

/-- All that happens to a record: it is redeemed. -/
def Becomes (first : Revision) (old new : Record) : Prop := Minted first old ∧ Redeemed first new

/-- Everything held fits, and a replica with a committed redemption holds a redeemed record. -/
structure Inv (first : Revision) (key : RecordKey) (w : Edited σ ι ρ Consumption) : Prop where
  holds : Edited.Holds (fun _ => Fits first) key w
  once : ∀ name, (w.log.filter fun entry => entry.1 = name).length ≤ 1
  logged : ∀ entry ∈ w.log, ∃ r, w.getRaw entry.1 key = some r ∧ Redeemed first r

/-- A redeemed record stays what it is. -/
theorem keeps_redeemed {w w' : Edited σ ι ρ Consumption}
    (moves : Edited.Moves Redeems (fun _ => Fits first) (Becomes first) key w w') {name : σ} {r : Record}
    (held : w.getRaw name key = some r) (redeemed : Redeemed first r) :
    w'.getRaw name key = some r := by
  -- the replica that moves held a minted record, so it is another one
  have elsewhere : ∀ {other old new}, w.getRaw other key = some old → Becomes first old new →
      (∀ name, w'.getRaw name key = if name = other then some new else w.getRaw name key) →
      w'.getRaw name key = some r := by
    rintro other old new held' ⟨minted, -⟩ stored
    rw [stored, if_neg, held]
    rintro rfl
    cases held.symm.trans held'
    exact counter_ne_next _ ((congrArg Revision.counter minted.revision).symm.trans
      redeemed.counter)
  cases moves with
  | same stored log => rw [stored, held]
  | synced other old new held' becomes stored log => exact elsewhere held' becomes stored
  | edited other old new prev body note held' becomes known permitted filed stored log =>
    exact elsewhere held' becomes stored

theorem Inv.moved {w w' : Edited σ ι ρ Consumption} (inv : Inv first key w)
    (holds : Edited.Holds (fun _ => Fits first) key w')
    (moves : Edited.Moves Redeems (fun _ => Fits first) (Becomes first) key w w') : Inv first key w' := by
  have still : ∀ entry ∈ w.log, ∃ r, w'.getRaw entry.1 key = some r ∧ Redeemed first r := by
    intro entry member
    obtain ⟨r, held, redeemed⟩ := inv.logged entry member
    exact ⟨r, keeps_redeemed moves held redeemed, redeemed⟩
  have quiet : w'.log = w.log → Inv first key w' := fun log =>
    ⟨holds, log ▸ inv.once, log ▸ still⟩
  cases moves with
  | same stored log | synced other old new held becomes stored log => exact quiet log
  | edited name old new prev body note held becomes known permitted filed stored log =>
    -- the replica's record was unredeemed, so nothing had been committed there
    have none_before : ∀ entry ∈ w.log, entry.1 ≠ name := by
      rintro entry member rfl
      obtain ⟨r, held', taken⟩ := inv.logged entry member
      cases held.symm.trans held'
      exact counter_ne_next _ ((congrArg Revision.counter becomes.1.revision).symm.trans
        taken.counter)
    refine ⟨holds, fun name' => ?_, fun entry member => ?_⟩
    · rw [log, List.filter_cons]
      split
      next here =>
        have empty : w.log.filter (fun entry => entry.1 = name') = [] :=
          List.filter_eq_nil_iff.mpr fun entry member => by
            simpa using (of_decide_eq_true here) ▸ none_before entry member
        rw [empty]
        rfl
      · exact inv.once name'
    · rw [log] at member
      rcases List.mem_cons.mp member with rfl | before
      · exact ⟨new, (stored name).trans (if_pos rfl), becomes.2⟩
      · exact still entry before

omit [DecidableEq σ] in
/-- A write that the last two reads of a sync justify redeems an unredeemed record. -/
theorem becomes_of_justified [Serde] {a b name : σ} {recA recB rec current : Record}
    (fitsA : Fits first recA) (fitsB : Fits first recB) (fitsC : Fits first current)
    (justified : Justified a b (some recA) (some recB) name rec (some current.revision)) :
    Minted first current ∧ Redeemed first rec := by
  generalize expects : some current.revision = expected at justified
  cases justified with
  | forwardB _ _ ahead =>
    obtain ⟨apart, listed⟩ := relate_aAhead ahead
    obtain ⟨redeemed, minted⟩ := fitsA.of_ahead fitsB apart listed
    exact ⟨fitsC.minted_of_revision ((Option.some.inj expects).trans minted.revision), redeemed⟩
  | forwardA _ _ ahead =>
    obtain ⟨apart, listed⟩ := relate_bAhead ahead
    obtain ⟨redeemed, minted⟩ := fitsB.of_ahead fitsA apart.symm listed
    exact ⟨fitsC.minted_of_revision ((Option.some.inj expects).trans minted.revision), redeemed⟩
  | reconcileA _ _ _ diverged reconciles => exact absurd reconciles (not_reconciles fitsA)
  | reconcileB _ _ _ diverged reconciles => exact absurd reconciles (not_reconciles fitsA)

omit [DecidableEq σ] in
/-- A redeemer's update of a record that fits is a redemption, and what it was built from
is unredeemed. -/
theorem becomes_of_put {prev next current : Record} {body : Body} {note : Consumption}
    {w : Edited σ ι ρ Consumption} (roundTrips : ∀ token : LinkToken,
      TokenSerde.fromSlice (TokenSerde.toVec token) = .ok token)
    (fits : Fits first prev) (fitsC : Fits first current) (redeems : Redeems w prev body note)
    (filed : Edited.Filed prev current next body) : Becomes first current next := by
  obtain ⟨token, secret, person, binding, nowMs, redeemed, decoded, ran, rfl, noted⟩ := redeems
  obtain ⟨unconsumed, -⟩ := LinkToken.redeem_ok ran
  have minted : Minted first prev := by
    refine fits.resolve_right fun taken => ?_
    obtain ⟨token', body', consumed⟩ := taken.token
    rw [body', LinkToken.fromBody_toBody (roundTrips token')] at decoded
    cases decoded
    simp [unconsumed] at consumed
  have mintedC := fitsC.minted_of_revision (filed.fresh.trans minted.revision)
  refine ⟨mintedC, filed.kind.trans minted.kind, ?_, ?_, ⟨redeemed, filed.bodyIs, by simp [noted]⟩,
    fun r member => ?_⟩
  · rw [filed.revision, Revision.next, minted.revision]
  · rw [filed.revision, filed.bodyIs]
    rfl
  · obtain ⟨cap, ancestors⟩ := filed.ancestors
    rw [ancestors] at member
    obtain ⟨-, listed | ⟨_, is, inherited⟩⟩ := mem_foldAncestors member
    · cases listed
    · cases is
      rcases List.mem_cons.mp inherited with rfl | inherited
      · rw [mintedC.revision]
        exact counter_ne_next _
      · exact mintedC.ancestors r inherited

end Steps

/-! ## Runs -/

section Runs

variable {σ ι ρ : Type} [DecidableEq σ] [DecidableEq ι] [DecidableEq ρ] [Serde]

/-- Redeemers and syncs, and nobody else. -/
abbrev redemptionRules (peers : ι → σ × σ) (key : RecordKey) :
    Rules (syncInterface σ) (Edited σ ι ρ Consumption) ι CoreError SyncReport :=
  Edited.rules peers key Redeems fun _ _ _ => True

/-- Every replica holds the same unredeemed record, and nobody has done anything. -/
structure Begins (key : RecordKey) (minted : Record) (c : EditedPool σ ι ρ Consumption) :
    Prop where
  stored : ∀ name, c.world.getRaw name key = some minted
  kind : minted.kind = .linkToken
  unconsumed : consumptionOf minted = none
  unseen : ∀ i name, c.world.fleet.seen i name key = none
  unheld : ∀ e, c.world.held e = none
  unlogged : c.world.log = []
  idle : ∀ i, c.clients i = none

variable {peers : ι → σ × σ} {key : RecordKey} {minted : Record}
  {c₀ c c' : EditedPool σ ι ρ Consumption}

omit [DecidableEq ι] [DecidableEq ρ] [Serde] in
theorem inv_of_begins (begins : Begins key minted c₀)
    (ancestors : ∀ x ∈ minted.ancestors, x.counter ≠ minted.revision.counter + 1) :
    Inv minted.revision key c₀.world where
  holds :=
    { stored := fun name => ⟨minted, begins.stored name,
        Or.inl ⟨begins.kind, rfl, begins.unconsumed, ancestors⟩⟩
      seen := fun i name found noted => by simp [begins.unseen] at noted
      held := fun e name r noted => by simp [begins.unheld] at noted }
  once name := by simp [begins.unlogged]
  logged entry member := by simp [begins.unlogged] at member

/-- The invariant, and every record that was redeemed is still there. -/
structure Kept (first : Revision) (key : RecordKey) (before w : Edited σ ι ρ Consumption) :
    Prop where
  inv : Inv first key w
  redeemed : ∀ name r, before.getRaw name key = some r → Redeemed first r →
    w.getRaw name key = some r

omit [DecidableEq ι] [DecidableEq ρ] [Serde] in
theorem Kept.moved {before w w' : Edited σ ι ρ Consumption} (kept : Kept first key before w)
    (inv : Inv first key w')
    (moves : Edited.Moves Redeems (fun _ => Fits first) (Becomes first) key w w') :
    Kept first key before w' :=
  ⟨inv, fun name r was redeemed => keeps_redeemed moves (kept.redeemed name r was redeemed) redeemed⟩

theorem kept_reaches (distinct : ∀ i, (peers i).1 ≠ (peers i).2)
    (roundTrips : ∀ token : LinkToken, TokenSerde.fromSlice (TokenSerde.toVec token) = .ok token)
    (covered : Edited.Covered peers c) (inv : Inv first key c.world)
    (run : Pool.Reaches (redemptionRules peers key) c c') :
    Kept first key c.world c'.world ∧ Edited.Covered peers c' := by
  refine Edited.invariant distinct ?_ ?_ covered ⟨inv, fun _ _ held _ => held⟩ run
  · intro w fleet i req answer kept _ guarded served
    obtain ⟨holds, moves⟩ := @Edited.Holds.served _ _ _ _ _ _ _ _ Redeems _ (Becomes first) key w
      fleet peers i req answer kept.inv.holds guarded served
      fun name rec recA recB current cap _ _ _ _ _ fitsA fitsB fitsC justified => by
        obtain ⟨minted, redeemed⟩ := becomes_of_justified fitsA fitsB fitsC justified
        have filed := redeemed.rawRecord minted cap
        exact ⟨Or.inr filed, minted, filed⟩
    exact kept.moved (kept.inv.moved holds moves) moves
  · intro w w' kept step
    obtain ⟨holds, moves⟩ := @Edited.Holds.client _ _ _ _ _ _ _ Redeems _ (Becomes first) key w w'
      kept.inv.holds step (fun _ _ fits => fits)
      fun name prev body note current next redeems fits fitsC filed => by
        have becomes := becomes_of_put roundTrips fits fitsC redeems filed
        exact ⟨Or.inr becomes.2, becomes⟩
    exact kept.moved (kept.inv.moved holds moves) moves

omit [Serde] in
/-- A record that fits and says by whom it was consumed is a redeemed one. -/
theorem redeemed_of_consumption {r : Record} {x : Consumption} (fits : Fits first r)
    (consumed : consumptionOf r = some x) : Redeemed first r :=
  fits.resolve_left fun minted => by simp [minted.unconsumed] at consumed

/-- Two redemptions that differ diverge, and no merge settles them. -/
theorem unmergeable_of_redeemed (collisionFree : Function.Injective Blake3.hashHex)
    {recA recB : Record} (redeemedA : Redeemed first recA) (redeemedB : Redeemed first recB)
    (differ : consumptionOf recA ≠ consumptionOf recB) : Unmergeable recA recB := by
  have apart : recA.revision ≠ recB.revision := by
    intro same
    obtain ⟨tokenA, bodyA, -⟩ := redeemedA.token
    obtain ⟨tokenB, bodyB, -⟩ := redeemedB.token
    have hashes := (redeemedA.hash.symm.trans (congrArg Revision.hash same)).trans redeemedB.hash
    have bytes := collisionFree (congrArg ContentHash.text hashes)
    rw [bodyA, bodyB, LinkToken.toBody, LinkToken.toBody, Body.bytes_inline, Body.bytes_inline]
      at bytes
    refine differ ?_
    rw [consumptionOf, consumptionOf, bodyA, bodyB, LinkToken.toBody, LinkToken.toBody, bytes]
  have fitsA : Fits first recA := Or.inr redeemedA
  have fitsB : Fits first recB := Or.inr redeemedB
  refine ⟨?_, fitsA.live, fitsB.live, fun base => ?_⟩
  · rw [relate, if_neg apart, if_neg fun listed => redeemedA.ancestors _ listed redeemedB.counter,
      if_neg fun listed => redeemedB.ancestors _ listed redeemedA.counter]
  · rw [redeemedA.kind]
    rfl

/-- A link token is redeemed at most once at each replica, stays redeemed, and a sync of two
replicas that were redeemed differently reports the conflict. -/
theorem link_token_redeemed_once (distinct : ∀ i, (peers i).1 ≠ (peers i).2)
    (roundTrips : ∀ token : LinkToken, TokenSerde.fromSlice (TokenSerde.toVec token) = .ok token)
    (collisionFree : Function.Injective Blake3.hashHex) (begins : Begins key minted c₀)
    (ancestors : ∀ x ∈ minted.ancestors, x.counter ≠ minted.revision.counter + 1)
    (run : Pool.Reaches (redemptionRules peers key) c₀ c) :
    (∀ name, (c.world.log.filter fun entry => entry.1 = name).length ≤ 1) ∧
    (∀ name r x, c.world.getRaw name key = some r → consumptionOf r = some x →
      ∀ c', Pool.Reaches (redemptionRules peers key) c c' → c'.world.getRaw name key = some r) ∧
    ∀ i recA recB x y, c.world.getRaw (peers i).1 key = some recA →
      c.world.getRaw (peers i).2 key = some recB →
      consumptionOf recA = some x → consumptionOf recB = some y → x ≠ y →
      ∀ ancestry c' report, Pool.Reaches (redemptionRules peers key)
        (c.setClient i (syncWithAncestry (peers i).1 (peers i).2 ancestry)) c' →
        c'.clients i = some (.done report) →
        ⟨key, recA, recB⟩ ∈ report.conflicts ∧ c'.world.getRaw (peers i).1 key = some recA ∧
          c'.world.getRaw (peers i).2 key = some recB := by
  obtain ⟨⟨inv, -⟩, covered⟩ := kept_reaches distinct roundTrips
    (Edited.covered_of_idle begins.idle) (inv_of_begins begins ancestors) run
  have redeemed : ∀ {name r x}, c.world.getRaw name key = some r → consumptionOf r = some x →
      Redeemed minted.revision r := by
    intro name r x held consumed
    obtain ⟨r', held', fits⟩ := inv.holds.stored name
    cases held.symm.trans held'
    exact redeemed_of_consumption fits consumed
  have stays : ∀ {name r x}, c.world.getRaw name key = some r → consumptionOf r = some x →
      ∀ c', Pool.Reaches (redemptionRules peers key) c c' → c'.world.getRaw name key = some r :=
    fun held consumed c' later =>
      (kept_reaches distinct roundTrips covered inv later).1.redeemed _ _ held
      (redeemed held consumed)
  refine ⟨inv.once, fun name r x held consumed => stays held consumed, ?_⟩
  intro i recA recB x y atA atB consumedA consumedB differ ancestry c' report later finished
  have started : Pool.Step (redemptionRules peers key) c
      (c.setClient i (syncWithAncestry (peers i).1 (peers i).2 ancestry)) :=
    .start i _ ⟨ancestry, rfl⟩
  have stand : ∀ c'', Pool.Reaches (redemptionRules peers key)
      (c.setClient i (syncWithAncestry (peers i).1 (peers i).2 ancestry)) c'' →
      c''.world.getRaw (peers i).1 key = some recA ∧
        c''.world.getRaw (peers i).2 key = some recB := fun c'' on =>
    ⟨stays atA consumedA c'' ((Relation.ReflTransGen.single started).trans on),
      stays atB consumedB c'' ((Relation.ReflTransGen.single started).trans on)⟩
  have unmergeable := unmergeable_of_redeemed collisionFree (redeemed atA consumedA)
    (redeemed atB consumedB)
    (by rw [consumedA, consumedB]; exact fun same => differ (Option.some.inj same))
  exact ⟨Edited.reported unmergeable stand later finished, stand c' later⟩

end Runs

end Redemption

section Samples

/-! ## A token and its texts -/

instance encodableString : Encodable String :=
  Encodable.ofLeftInverse (fun text => text.toList.map Char.toNat)
    (fun code => String.ofList (code.map Char.ofNat)) fun text => by
      simp [Function.comp_def]

instance encodableInt64 : Encodable Int64 :=
  Encodable.ofLeftInverse Int64.toInt Int64.ofInt Int64.ofInt_toInt

deriving instance Encodable for RecordKey
deriving instance Encodable for FleetRole
deriving instance Encodable for GrantScope
deriving instance Encodable for Authenticator
deriving instance Encodable for FleetActor
deriving instance Encodable for Consumption
deriving instance Encodable for LinkToken

attribute [local instance] sampleBlake3 plainSerde

def sampleSecret : LinkSecret := ⟨List.replicate 32 97, rfl⟩

/-- A token that any person may redeem before time 1000. -/
def mintedToken : LinkToken := .new sampleSecret .viewer .fleet none (.service "ariel") 0 1000

/-- It was redeemed by `p1` at time 500. -/
def redeemedToken : LinkToken :=
  { mintedToken with consumed := some ⟨"p1", ⟨"fleet", "identity-bindings", "discord:42"⟩, 500⟩ }

def laterConsumption : Consumption := ⟨"p2", ⟨"fleet", "identity-bindings", "discord:7"⟩, 600⟩

/-- It was redeemed by `p2` at time 600. -/
def laterToken : LinkToken := { mintedToken with consumed := some laterConsumption }

/-- The texts of the tokens up to `consumed`, and after it. -/
def tokenText (consumed : String) : String :=
  "\x7b\"token_hash\":\"" ++ mintedToken.tokenHash ++ "\",\"role\":\"Viewer\",\"scope\":\"Fleet\"," ++
    "\"person\":null,\"minted_by\":\x7b\"Service\":\"ariel\"\x7d,\"minted_at\":0," ++
    "\"expires_at\":1000,\"consumed\":" ++ consumed ++ "\x7d"

def sampleTokens : List (LinkToken × Bytes) :=
  [(mintedToken, asBytes (tokenText "null")),
   (redeemedToken, asBytes (tokenText ("\x7b\"person\":\"p1\",\"binding\":\x7b\"namespace\":\"fleet\"," ++
      "\"collection\":\"identity-bindings\",\"id\":\"discord:42\"\x7d,\"at\":500\x7d"))),
   (laterToken, asBytes (tokenText ("\x7b\"person\":\"p2\",\"binding\":\x7b\"namespace\":\"fleet\"," ++
      "\"collection\":\"identity-bindings\",\"id\":\"discord:7\"\x7d,\"at\":600\x7d")))]

/-- `serde_json::to_vec` on the listed tokens, and some text for each other one. -/
def sampleToVec (token : LinkToken) : Bytes :=
  match sampleTokens.find? fun sample => sample.1 = token with
  | some sample => sample.2
  | none => List.replicate (Encodable.encode token) 0

def sampleFromSlice (bytes : Bytes) : Except String LinkToken :=
  match sampleTokens.find? fun sample => sample.2 = bytes with
  | some sample => .ok sample.1
  | none =>
    match Encodable.decode bytes.length with
    | some token => .ok token
    | none => .error "expected value at line 1 column 1"

abbrev sampleTokenSerde : TokenSerde := ⟨sampleToVec, sampleFromSlice⟩

theorem sampleTokens_roundTrip (token : LinkToken) :
    sampleFromSlice (sampleToVec token) = .ok token := by
  have distinct : (sampleTokens.map Prod.snd).Nodup := by decide +kernel
  have spelled : ∀ sample ∈ sampleTokens, sample.2.head? = some 123 := by decide +kernel
  unfold sampleToVec
  split
  next sample found =>
    have member := List.mem_of_find?_eq_some found
    have same : sample.1 = token := by simpa using List.find?_some found
    have first : sampleTokens.find? (fun other => other.2 = sample.2) = some sample := by
      cases found' : sampleTokens.find? (fun other => other.2 = sample.2) with
      | none => simpa using List.find?_eq_none.mp found' sample member
      | some other =>
        rw [List.inj_on_of_nodup_map distinct (List.mem_of_find?_eq_some found') member
          (by simpa using List.find?_some found')]
    rw [sampleFromSlice, first]
    exact congrArg Except.ok same
  next none =>
    have unlisted : sampleTokens.find?
        (fun other => other.2 = List.replicate (Encodable.encode token) 0) = .none := by
      refine List.find?_eq_none.mpr fun sample member same => ?_
      have text : sample.2 = List.replicate (Encodable.encode token) 0 := by simpa using same
      have head := spelled sample member
      rw [text, List.head?_replicate] at head
      split at head <;> simp at head
    rw [sampleFromSlice, unlisted, List.length_replicate, Encodable.encodek]

attribute [local instance] sampleTokenSerde

/-- The record of the minted token, with the given ancestors. -/
def mintedRecord (ancestors : List Revision) : Record :=
  { Record.create mintedToken.key .linkToken mintedToken.toBody (.new (.new "ada") "example") with
    ancestors := ancestors }

/-- Two replicas that hold it. -/
def twoReplicas (ancestors : List Revision) : EditedPool Bool Unit Bool Consumption where
  world :=
    { fleet :=
        { stores := fun _ => holding 32 cap32_pos (mintedRecord ancestors)
          seen := fun _ _ _ => none
          recreated := fun _ _ => False }
      held := fun _ => none
      log := [] }
  clients := fun _ => none

theorem twoReplicas_begins (ancestors : List Revision) :
    Begins mintedToken.key (mintedRecord ancestors) (twoReplicas ancestors) where
  stored _ := holding_getRaw 32 (by decide) (mintedRecord ancestors)
  kind := rfl
  unconsumed := consumptionOf_token (sampleTokens_roundTrip mintedToken) rfl
  unseen _ _ := rfl
  unheld _ := rfl
  unlogged := rfl
  idle _ := rfl

def sampleConsumption : Consumption := ⟨"p1", ⟨"fleet", "identity-bindings", "discord:42"⟩, 500⟩

theorem sample_redeems (ancestors : List Revision) (w : Edited Bool Unit Bool Consumption) :
    Redeems w (mintedRecord ancestors) redeemedToken.toBody sampleConsumption :=
  ⟨mintedToken, sampleSecret, "p1", ⟨"fleet", "identity-bindings", "discord:42"⟩, 500,
    redeemedToken, LinkToken.fromBody_toBody (sampleTokens_roundTrip mintedToken),
    by simp [LinkToken.redeem, mintedToken, LinkToken.new, redeemedToken], rfl, rfl⟩

/-- What a redemption at time 0 of the store's clock files. -/
def redeemedRecord (ancestors : List Revision) : Record :=
  updatedRecord (mintedRecord ancestors) ((mintedRecord ancestors).update redeemedToken.toBody
    (mintedRecord ancestors).metadata) 0 32

theorem consumptionOf_redeemedRecord (ancestors : List Revision) :
    consumptionOf (redeemedRecord ancestors) = some sampleConsumption :=
  consumptionOf_token (sampleTokens_roundTrip redeemedToken) rfl

abbrev pairRules : Rules (syncInterface Bool) (Edited Bool Unit Bool Consumption) Unit CoreError
    SyncReport := redemptionRules (fun _ => (false, true)) mintedToken.key

/-- Both replicas are redeemed, and a sync of the two that completes reports no conflict. -/
def Unreported (ancestors : List Revision) : Prop :=
  Begins mintedToken.key (mintedRecord ancestors) (twoReplicas ancestors) ∧
  ∃ c c' report, Pool.Reaches pairRules (twoReplicas ancestors) c ∧
    c.world.log = [(true, sampleConsumption), (false, sampleConsumption)] ∧
    Pool.Reaches pairRules c c' ∧ c'.clients () = some (.done report) ∧
    mintedToken.key ∉ report.conflicts.map SyncConflict.key

/-- A replica is redeemed, and after a sync it no longer is. -/
def Reverted (ancestors : List Revision) : Prop :=
  Begins mintedToken.key (mintedRecord ancestors) (twoReplicas ancestors) ∧
  ∃ c c' r r', Pool.Reaches pairRules (twoReplicas ancestors) c ∧
    c.world.getRaw true mintedToken.key = some r ∧ consumptionOf r = some sampleConsumption ∧
    Pool.Reaches pairRules c c' ∧
    c'.world.getRaw true mintedToken.key = some r' ∧ consumptionOf r' = none

/-- The same person redeems the token at both replicas, into the same binding and at the
same time: the two records have one revision, and their sync reports nothing. -/
theorem same_redemption_unreported : Unreported [] := by
  have live : (mintedRecord []).isTombstone = false := rfl
  have stored := fun name => (twoReplicas_begins []).stored name
  obtain ⟨c₁, run₁, held₁, caps₁, log₁⟩ := @Edited.quiet_edit Bool Unit Bool _ _ _ _ _ _
    (fun _ => (false, true)) _ _ false _ _ _ _ false (stored false) live (sample_redeems [])
  obtain ⟨c₂, run₂, held₂, caps₂, log₂⟩ := @Edited.quiet_edit Bool Unit Bool _ _ _ _ _ _
    (fun _ => (false, true)) _ _ true _ _ _ _ true ((held₁ true).trans (stored true)) live
    (sample_redeems [])
  rw [caps₁] at held₂
  have both : ∀ name, (c₂.world.fleet.stores name).getRaw mintedToken.key =
      some (redeemedRecord []) := by
    intro name
    refine (held₂ name).trans ?_
    cases name
    · exact held₁ false
    · rfl
  obtain ⟨c₃, report, run₃, finished, reported, -⟩ := @Edited.quiet_sync Bool Unit Bool _ _ _ _ _ _
    (fun _ => (false, true)) Redeems () Bool.false_ne_true c₂ mintedToken.key
  refine ⟨twoReplicas_begins [], c₂, c₃, report, run₁.trans run₂, ?_, run₃, finished, ?_⟩
  · rw [log₂, log₁]
    rfl
  · rw [reported.conflicts, outcomeAt, both, both, outcome, relate_inSync.mpr rfl]
    simp [Outcome.arm]

/-- A minted record that lists its own redemption as an ancestor is ahead of it: a sync
takes the redemption back. -/
theorem listed_redemption_reverts : Reverted [(redeemedRecord []).revision] := by
  generalize listed : [(redeemedRecord []).revision] = ancestors
  have live : (mintedRecord ancestors).isTombstone = false := rfl
  have stored := fun name => (twoReplicas_begins ancestors).stored name
  obtain ⟨c₁, run₁, held₁, caps₁, -⟩ := @Edited.quiet_edit Bool Unit Bool _ _ _ _ _ _
    (fun _ => (false, true)) _ _ true _ _ _ _ true (stored true) live (sample_redeems ancestors)
  have atA : (c₁.world.fleet.stores false).getRaw mintedToken.key =
      some (mintedRecord ancestors) := (held₁ false).trans (stored false)
  have atB : (c₁.world.fleet.stores true).getRaw mintedToken.key =
      some (redeemedRecord ancestors) := held₁ true
  have ahead : relate (mintedRecord ancestors) (redeemedRecord ancestors) = .aAhead := by
    have older : (mintedRecord ancestors).revision ≠ (redeemedRecord ancestors).revision :=
      fun same => counter_ne_next _ (congrArg Revision.counter same)
    rw [relate, if_neg older, if_pos]
    change _ ∈ ancestors
    rw [← listed]
    exact List.mem_singleton_self _
  obtain ⟨c₂, report, run₂, -, -, alike⟩ := @Edited.quiet_sync Bool Unit Bool _ _ _ _ _ _
    (fun _ => (false, true)) Redeems () Bool.false_ne_true c₁ mintedToken.key
  have after := (alike true).1
  rw [outcomeAt, atA, atB, outcome, ahead] at after
  exact ⟨twoReplicas_begins ancestors, c₁, c₂, _, _, run₁, atB,
    consumptionOf_redeemedRecord ancestors, run₂, after.trans ((written_getRaw
      c₁.world.fleet.stores true (mintedRecord ancestors) true).trans (if_pos rfl)),
    consumptionOf_token (sampleTokens_roundTrip mintedToken) rfl⟩

/-- Equal redemptions go unreported, and a start that lists the next counter goes back. -/
theorem link_token_unreported_and_reverted :
    Unreported [] ∧ Reverted [(redeemedRecord []).revision] :=
  ⟨same_redemption_unreported, listed_redemption_reverts⟩

theorem later_redeems (w : Edited Bool Unit Bool Consumption) :
    Redeems w (mintedRecord []) laterToken.toBody laterConsumption :=
  ⟨mintedToken, sampleSecret, "p2", ⟨"fleet", "identity-bindings", "discord:7"⟩, 600, laterToken,
    LinkToken.fromBody_toBody (sampleTokens_roundTrip mintedToken),
    by simp [LinkToken.redeem, mintedToken, LinkToken.new, laterToken, laterConsumption], rfl, rfl⟩

/-- Two persons redeem the token, one at each replica, and the two replicas sync: the
conflict is reported and both redemptions stand. -/
theorem two_replicas_redeemed_once : ∃ c c' recA recB report,
    Pool.Reaches pairRules (twoReplicas []) c ∧
      c.world.log = [(true, laterConsumption), (false, sampleConsumption)] ∧
      (∀ name, (c.world.log.filter fun entry => entry.1 = name).length ≤ 1) ∧
      consumptionOf recA = some sampleConsumption ∧ consumptionOf recB = some laterConsumption ∧
      Pool.Reaches pairRules (c.setClient () (syncWithAncestry false true false)) c' ∧
      c'.clients () = some (.done report) ∧ ⟨mintedToken.key, recA, recB⟩ ∈ report.conflicts ∧
      c'.world.getRaw false mintedToken.key = some recA ∧
      c'.world.getRaw true mintedToken.key = some recB := by
  have live : (mintedRecord []).isTombstone = false := rfl
  have stored := fun name => (twoReplicas_begins []).stored name
  obtain ⟨c₁, run₁, held₁, -, log₁⟩ := @Edited.quiet_edit Bool Unit Bool _ _ _ _ _ _
    (fun _ => (false, true)) _ _ false _ _ _ _ false (stored false) live (sample_redeems [])
  obtain ⟨c₂, run₂, held₂, -, log₂⟩ := @Edited.quiet_edit Bool Unit Bool _ _ _ _ _ _
    (fun _ => (false, true)) _ _ true _ _ _ _ true ((held₁ true).trans (stored true)) live
    later_redeems
  obtain ⟨c₃, report, run₃, finished, -, -⟩ := @Edited.quiet_started Bool Unit Bool _ _ _ _ _ _
    (fun _ => (false, true)) Redeems () Bool.false_ne_true c₂ mintedToken.key
  have atA := (held₂ false).trans (held₁ false)
  have atB := held₂ true
  obtain ⟨once, -, conflicts⟩ := @link_token_redeemed_once _ _ Bool Unit Bool _ _ _ _
    (fun _ => (false, true)) mintedToken.key (mintedRecord []) (twoReplicas []) c₂
    (fun _ => Bool.false_ne_true) sampleTokens_roundTrip sampleHashHex_injective
    (twoReplicas_begins []) (List.forall_mem_nil _) (run₁.trans run₂)
  obtain ⟨reported, standA, standB⟩ := conflicts () _ _ _ _ atA atB
    (consumptionOf_token (sampleTokens_roundTrip redeemedToken) rfl)
    (consumptionOf_token (sampleTokens_roundTrip laterToken) rfl) (by decide) false c₃ report run₃
    finished
  refine ⟨c₂, c₃, _, _, report, run₁.trans run₂, ?_, once,
    consumptionOf_token (sampleTokens_roundTrip redeemedToken) rfl,
    consumptionOf_token (sampleTokens_roundTrip laterToken) rfl, run₃, finished, reported, standA,
    standB⟩
  rw [log₂, log₁]
  rfl

end Samples

end Gonzalo.Domain
