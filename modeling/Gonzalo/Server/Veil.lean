import Gonzalo.Core.Backend
import Gonzalo.Lib.TwoRuns

/-!
# What a principal cannot see

A record in a namespace that a principal may not read, with its content covered: the body,
the metadata, the links, and the blob that a tombstone names. Two backends that hold the
same under the veil answer every call the same under it, and still do afterwards.
-/

set_option autoImplicit false

namespace Gonzalo.Core
open Gonzalo.Lib

/-! ## Under the veil -/

/-- The record without its content and without the blob that its deletion left. -/
def Record.veil (reads : String → Bool) (self : Record) : Record :=
  if reads self.key.ns then self
  else
    { self with
      body := .inline []
      metadata := .new (.new "") ""
      links := []
      deletedBlob := if self.isTombstone then none else self.deletedBlob }

def Conflict.veil (reads : String → Bool) (self : Conflict) : Conflict :=
  { self with current := self.current.veil reads }

def PutResult.veil (reads : String → Bool) : PutResult → PutResult
  | .committed revision => .committed revision
  | .conflict c => .conflict (c.veil reads)

def DeleteResult.veil (reads : String → Bool) : DeleteResult → DeleteResult
  | .deleted => .deleted
  | .conflict c => .conflict (c.veil reads)

/-- The backends hold the same in the namespaces that `knows` lists, but for what `cover`
hides of a record. -/
structure Backend.SameUpTo (knows : String → Bool) (cover : Record → Record) (w w' : Backend) :
    Prop where
  records : ∀ key, knows key.ns = true →
    (w.store.getRaw key).map cover = (w'.store.getRaw key).map cover
  cap : w.store.cap = w'.store.cap
  blobs : w.blobs = w'.blobs
  listing : w.listing = w'.listing

/-- What the veil leaves of a record. -/
structure Record.Veiled (reads : String → Bool) (r r' : Record) : Prop where
  key : r.key = r'.key
  kind : r.kind = r'.kind
  revision : r.revision = r'.revision
  parent : r.parent = r'.parent
  ancestors : r.ancestors = r'.ancestors
  deletedAt : r.deletedAt = r'.deletedAt
  deletedKind : r.deletedKind = r'.deletedKind
  deletedBlob : r.isTombstone = false → r.deletedBlob = r'.deletedBlob
  plain : reads r.key.ns = true → r = r'

section Veil
variable {reads : String → Bool} {r r' : Record}

@[simp] theorem Record.veil_of_reads (readable : reads r.key.ns = true) : r.veil reads = r := by
  simp [veil, readable]

@[simp] theorem Record.veil_key (r : Record) : (r.veil reads).key = r.key := by
  unfold veil
  split <;> rfl

theorem Record.veil_eq_iff : r.veil reads = r'.veil reads ↔ r.Veiled reads r' := by
  constructor
  · intro same
    have key : r.key = r'.key := by simpa using congrArg Record.key same
    cases readable : reads r.key.ns with
    | true =>
      have readable' := key ▸ readable
      rw [veil_of_reads readable, veil_of_reads readable'] at same
      subst same
      exact ⟨rfl, rfl, rfl, rfl, rfl, rfl, rfl, fun _ => rfl, fun _ => rfl⟩
    | false =>
      have hidden : reads r'.key.ns = false := key ▸ readable
      simp only [veil, readable, hidden, Bool.false_eq_true, if_false, Record.mk.injEq] at same
      obtain ⟨-, kind, revision, parent, -, -, -, ancestors, deletedAt, blob, deletedKind⟩ := same
      have dead : r.isTombstone = r'.isTombstone := by simp only [isTombstone, kind]
      refine ⟨key, kind, revision, parent, ancestors, deletedAt, deletedKind, fun live => ?_, ?_⟩
      · rw [← dead, live] at blob
        exact blob
      · rw [readable]
        intro impossible
        cases impossible
  · intro veiled
    cases readable : reads r.key.ns with
    | true => rw [veiled.plain readable]
    | false =>
      have hidden : reads r'.key.ns = false := veiled.key ▸ readable
      have dead : r.isTombstone = r'.isTombstone := by simp only [isTombstone, veiled.kind]
      simp only [veil, readable, hidden, Bool.false_eq_true, if_false, Record.mk.injEq]
      refine ⟨veiled.key, veiled.kind, veiled.revision, veiled.parent, trivial, trivial, trivial,
        veiled.ancestors, veiled.deletedAt, ?_, veiled.deletedKind⟩
      cases live : r.isTombstone with
      | true => simp [← dead, live]
      | false => simpa [← dead, live] using veiled.deletedBlob live

theorem Record.Veiled.isTombstone (veiled : r.Veiled reads r') : r.isTombstone = r'.isTombstone := by
  simp only [Record.isTombstone, veiled.kind]

theorem Record.Veiled.lineage (veiled : r.Veiled reads r') : r.lineage = r'.lineage := by
  rw [Record.lineage, Record.lineage, veiled.revision, veiled.ancestors]

/-- Both keys hold nothing, or records that agree under the veil. -/
theorem veiled_cases {c c' : Option Record}
    (same : c.map (Record.veil reads) = c'.map (Record.veil reads)) :
    c = none ∧ c' = none ∨ ∃ r r', c = some r ∧ c' = some r' ∧ r.Veiled reads r' := by
  cases c with
  | none =>
    cases c' with
    | none => exact .inl ⟨rfl, rfl⟩
    | some r' => cases same
  | some r =>
    cases c' with
    | none => cases same
    | some r' => exact .inr ⟨r, r', rfl, rfl, Record.veil_eq_iff.mp (Option.some.inj same)⟩

end Veil

/-! ## What is planned -/

def PutPlan.veil (reads : String → Bool) : PutPlan → PutPlan
  | .write record => .write (record.veil reads)
  | .conflict c => .conflict (c.veil reads)
  | .notFound => .notFound
  | .rejected reason => .rejected reason

def DeletePlan.veil (reads : String → Bool) : DeletePlan → DeletePlan
  | .write tombstone => .write (tombstone.veil reads)
  | .noop => .noop
  | .conflict c => .conflict (c.veil reads)

def PurgePlan.veil (reads : String → Bool) : PurgePlan → PurgePlan
  | .remove => .remove
  | .noop => .noop
  | .conflict c => .conflict (c.veil reads)

section Plans
variable [Blake3] {reads : String → Bool} {c c' r r' : Record}

/-- What a client supplies: the same under the veil, and the same body. -/
structure Record.SameSupplied (reads : String → Bool) (r r' : Record) : Prop extends
    Record.Veiled reads r r' where
  body : r.body = r'.body

omit [Blake3] in
theorem Record.SameSupplied.refl (r : Record) : r.SameSupplied reads r :=
  ⟨⟨rfl, rfl, rfl, rfl, rfl, rfl, rfl, fun _ => rfl, fun _ => rfl⟩, rfl⟩

omit [Blake3] in
theorem veil_createdRecord (supplied : r.SameSupplied reads r') (nowMs : Int) (cap : Nat) :
    (createdRecord r nowMs cap).veil reads = (createdRecord r' nowMs cap).veil reads := by
  apply Record.veil_eq_iff.mpr
  exact
    { key := supplied.key, kind := supplied.kind, revision := supplied.revision
      parent := supplied.parent, deletedAt := supplied.deletedAt
      deletedKind := supplied.deletedKind, deletedBlob := supplied.deletedBlob
      ancestors := by simp only [createdRecord, supplied.revision, supplied.ancestors]
      plain := fun readable => by rw [supplied.plain readable] }

theorem veil_recreatedRecord (stored : c.Veiled reads c') (supplied : r.SameSupplied reads r')
    (own : c.key = r.key) (nowMs : Int) (cap : Nat) :
    (recreatedRecord c r nowMs cap).veil reads = (recreatedRecord c' r' nowMs cap).veil reads := by
  apply Record.veil_eq_iff.mpr
  have lineage := stored.lineage
  exact
    { key := supplied.key, kind := supplied.kind
      revision := by simp only [recreatedRecord, stored.revision, supplied.body]
      parent := by simp only [recreatedRecord, stored.revision]
      ancestors := by
        simp only [recreatedRecord, stored.revision, supplied.body, supplied.ancestors,
          foldAncestors, Option.elim_some, lineage]
      deletedAt := rfl, deletedKind := rfl, deletedBlob := fun _ => rfl
      plain := fun readable => by
        rw [supplied.plain readable, stored.plain (own.symm ▸ readable)] }

omit [Blake3] in
theorem veil_updatedRecord (stored : c.Veiled reads c') (supplied : r.SameSupplied reads r')
    (own : c.key = r.key) (nowMs : Int) (cap : Nat) :
    (updatedRecord c r nowMs cap).veil reads = (updatedRecord c' r' nowMs cap).veil reads := by
  apply Record.veil_eq_iff.mpr
  have lineage := stored.lineage
  exact
    { key := supplied.key, kind := supplied.kind, revision := supplied.revision
      parent := supplied.parent, deletedAt := supplied.deletedAt
      deletedKind := supplied.deletedKind, deletedBlob := supplied.deletedBlob
      ancestors := by
        simp only [updatedRecord, supplied.revision, supplied.ancestors, foldAncestors,
          Option.elim_some, lineage]
      plain := fun readable => by
        rw [supplied.plain readable, stored.plain (own.symm ▸ readable)] }

omit [Blake3] in
theorem veil_rawRecord {current current' : Option Record}
    (stored : current.map (Record.veil reads) = current'.map (Record.veil reads))
    (own : ∀ c, current = some c → c.key = r.key) (cap : Nat) :
    (rawRecord current r cap).veil reads = (rawRecord current' r cap).veil reads := by
  rcases veiled_cases stored with ⟨rfl, rfl⟩ | ⟨c, c', rfl, rfl, veiled⟩
  · rfl
  · simp only [rawRecord, foldAncestors, Option.elim_some, veiled.lineage]

theorem veil_tombstoneOf (stored : c.Veiled reads c') (nowMs : Int) (cap : Nat)
    (author : Option Identity) :
    (tombstoneOf c nowMs cap author).veil reads = (tombstoneOf c' nowMs cap author).veil reads := by
  apply Record.veil_eq_iff.mpr
  have lineage := stored.lineage
  exact
    { key := stored.key, kind := rfl
      revision := by simp only [tombstoneOf, stored.revision]
      parent := by simp only [tombstoneOf, stored.revision]
      ancestors := by
        simp only [tombstoneOf, stored.revision, foldAncestors, Option.elim_some, lineage]
      deletedAt := rfl
      deletedKind := by simp only [tombstoneOf, stored.kind]
      deletedBlob := fun live => by simp [Record.isTombstone, tombstoneOf] at live
      plain := fun readable => by rw [stored.plain readable] }

theorem veil_planPut {current current' : Option Record}
    (stored : current.map (Record.veil reads) = current'.map (Record.veil reads))
    (own : ∀ c, current = some c → c.key = r.key) (supplied : r.SameSupplied reads r')
    (expected : Option Revision) (nowMs : Int) (cap : Nat) :
    (planPut current r expected nowMs cap).veil reads =
      (planPut current' r' expected nowMs cap).veil reads := by
  have dead := supplied.isTombstone
  unfold planPut
  rw [dead]
  rcases veiled_cases stored with ⟨rfl, rfl⟩ | ⟨c, c', rfl, rfl, veiled⟩
  · split
    · rfl
    · dsimp only
      split
      · rfl
      · simp only [PutPlan.veil, veil_createdRecord supplied]
  · have key := own c rfl
    split
    · rfl
    · dsimp only
      rw [veiled.isTombstone]
      split
      · cases expected with
        | none =>
          dsimp only
          rw [veiled.deletedKind]
          split
          · rfl
          · simp only [PutPlan.veil, veil_recreatedRecord veiled supplied key]
        | some revision => rfl
      · rw [veiled.revision]
        split
        · simp only [PutPlan.veil, veil_updatedRecord veiled supplied key]
        · simp only [PutPlan.veil, Conflict.veil, supplied.key, Record.veil_eq_iff.mpr veiled]

omit [Blake3] in
theorem veil_planPutRaw {current current' : Option Record}
    (stored : current.map (Record.veil reads) = current'.map (Record.veil reads))
    (own : ∀ c, current = some c → c.key = r.key) (expected : Option Revision) (nowMs : Int)
    (cap : Nat) : (planPutRaw current r expected nowMs cap).veil reads =
      (planPutRaw current' r expected nowMs cap).veil reads := by
  rcases veiled_cases stored with ⟨rfl, rfl⟩ | ⟨c, c', rfl, rfl, veiled⟩
  · rfl
  · have raw := veil_rawRecord stored own cap
    simp only [planPutRaw]
    rw [veiled.revision]
    split
    · simp only [PutPlan.veil, raw]
    · simp only [PutPlan.veil, Conflict.veil, Record.veil_eq_iff.mpr veiled]

theorem veil_planDelete {current current' : Option Record}
    (stored : current.map (Record.veil reads) = current'.map (Record.veil reads))
    (expected : Option Revision) (nowMs : Int) (cap : Nat) (author : Option Identity) :
    (planDelete current expected nowMs cap author).veil reads =
      (planDelete current' expected nowMs cap author).veil reads := by
  rcases veiled_cases stored with ⟨rfl, rfl⟩ | ⟨c, c', rfl, rfl, veiled⟩
  · rfl
  · simp only [planDelete]
    rw [veiled.isTombstone, veiled.revision]
    split
    · rfl
    · split
      · simp only [DeletePlan.veil, veil_tombstoneOf veiled]
      · simp only [DeletePlan.veil, Conflict.veil, veiled.key, Record.veil_eq_iff.mpr veiled]

omit [Blake3] in
theorem veil_planPurge {current current' : Option Record}
    (stored : current.map (Record.veil reads) = current'.map (Record.veil reads))
    (expected : Revision) :
    (planPurge current expected).veil reads = (planPurge current' expected).veil reads := by
  rcases veiled_cases stored with ⟨rfl, rfl⟩ | ⟨c, c', rfl, rfl, veiled⟩
  · rfl
  · simp only [planPurge]
    rw [veiled.revision]
    split
    · rfl
    · simp only [PurgePlan.veil, Conflict.veil, veiled.key, Record.veil_eq_iff.mpr veiled]

end Plans

/-! ## What is answered -/

/-- The listing of live keys, key by key. -/
theorem MemStore.list_eq (s : MemStore) (keys : KeyPrefix) :
    s.list keys = s.records.keys.filter fun key => (s.get key).isSome && keys.matches key := by
  have each : ∀ entry ∈ s.records.toList, entry.2.key = entry.1 ∧
      s.getRaw entry.1 = some entry.2 := by
    intro entry listed
    have held := Std.ExtTreeMap.mem_toList_iff_getElem?_eq_some.mp listed
    exact ⟨s.keyed _ _ held, held⟩
  rw [list, ← Std.ExtTreeMap.map_fst_toList_eq_keys, List.filter_map, List.filter_map, List.map_map]
  have same : s.records.toList.filter ((fun r => !r.isTombstone && keys.matches r.key) ∘ Prod.snd) =
      s.records.toList.filter
        ((fun key => (s.get key).isSome && keys.matches key) ∘ Prod.fst) := by
    apply List.filter_congr
    intro entry listed
    obtain ⟨own, held⟩ := each entry listed
    cases dead : entry.2.isTombstone <;> simp [get, held, own, dead]
  rw [same]
  apply List.map_congr_left
  intro entry listed
  exact (each entry (List.mem_of_mem_filter listed)).1

section Answers
variable {knows reads : String → Bool} {w w' : Backend}

namespace Backend.SameUpTo

theorem isSome (same : w.SameUpTo knows (Record.veil reads) w') {key : RecordKey}
    (known : knows key.ns = true) :
    (w.store.getRaw key).isSome = (w'.store.getRaw key).isSome := by
  simpa using congrArg Option.isSome (same.records key known)

/-- The same keys are stored in the known namespaces, in the same order. -/
theorem filter_keys (same : w.SameUpTo knows (Record.veil reads) w') {shown : RecordKey → Bool}
    (known : ∀ key, shown key = true → knows key.ns = true) :
    w.store.records.keys.filter shown = w'.store.records.keys.filter shown := by
  have members : (w.store.records.keys.filter shown).Perm (w'.store.records.keys.filter shown) := by
    apply (List.perm_ext_iff_of_nodup (Std.ExtTreeMap.nodup_keys.filter _)
      (Std.ExtTreeMap.nodup_keys.filter _)).mpr
    intro key
    rw [List.mem_filter, List.mem_filter, Std.ExtTreeMap.mem_keys, Std.ExtTreeMap.mem_keys,
      Std.ExtTreeMap.mem_iff_isSome_getElem?, Std.ExtTreeMap.mem_iff_isSome_getElem?]
    apply and_congr_left
    intro here
    exact iff_of_eq (congrArg (· = true) (same.isSome (known key here)))
  apply members.eq_of_pairwise _ (Std.ExtTreeMap.ordered_keys.filter _)
    (Std.ExtTreeMap.ordered_keys.filter _)
  intro a b _ _ before after
  exact absurd (compare_lt_iff_lt.mp after) (lt_asymm (compare_lt_iff_lt.mp before))

/-- Both keys are read alike, and what is read lies under the key. -/
def Shown (reads : String → Bool) (key : RecordKey) (a b : Option Record) : Prop :=
  a.map (Record.veil reads) = b.map (Record.veil reads) ∧ ∀ r, a = some r → r.key = key

theorem getRaw (same : w.SameUpTo knows (Record.veil reads) w') {key : RecordKey}
    (known : knows key.ns = true) : Shown reads key (w.store.getRaw key) (w'.store.getRaw key) :=
  ⟨same.records key known, fun _ stored => MemStore.key_of_getRaw stored⟩

theorem get (same : w.SameUpTo knows (Record.veil reads) w') {key : RecordKey}
    (known : knows key.ns = true) : Shown reads key (w.store.get key) (w'.store.get key) := by
  constructor
  · rcases veiled_cases (same.records key known) with ⟨here, there⟩ | ⟨r, r', here, there, veiled⟩
    · rw [MemStore.get, MemStore.get, here, there]
    · simp only [MemStore.get, here, there, Option.filter_some, veiled.isTombstone]
      split
      · exact congrArg some (Record.veil_eq_iff.mpr veiled)
      · rfl
  · intro r stored
    exact MemStore.key_of_getRaw (MemStore.get_eq_some.mp stored).1

theorem listRaw (same : w.SameUpTo knows (Record.veil reads) w') {keys : KeyPrefix}
    (known : ∀ key, keys.matches key = true → knows key.ns = true) :
    w.store.listRaw keys = w'.store.listRaw keys := same.filter_keys known

theorem list (same : w.SameUpTo knows (Record.veil reads) w') {keys : KeyPrefix}
    (known : ∀ key, keys.matches key = true → knows key.ns = true) :
    w.store.list keys = w'.store.list keys := by
  rw [MemStore.list_eq, MemStore.list_eq]
  calc w.store.records.keys.filter (fun key => (w.store.get key).isSome && keys.matches key)
      = w'.store.records.keys.filter (fun key => (w.store.get key).isSome && keys.matches key) :=
        same.filter_keys fun key here => known key (Bool.and_eq_true_iff.mp here).2
    _ = w'.store.records.keys.filter
          (fun key => (w'.store.get key).isSome && keys.matches key) := by
        apply List.filter_congr
        intro key _
        cases here : keys.matches key with
        | false => simp
        | true =>
          have live := congrArg Option.isSome (same.get (known key here)).1
          rw [Option.isSome_map, Option.isSome_map] at live
          rw [live]

theorem insert (same : w.SameUpTo knows (Record.veil reads) w') {r r' : Record}
    (veiled : r.veil reads = r'.veil reads) :
    SameUpTo knows (Record.veil reads) { w with store := w.store.insert r }
      { w' with store := w'.store.insert r' } where
  records key known := by
    have own := (Record.veil_eq_iff.mp veiled).key
    simp only [MemStore.getRaw_insert, own]
    split
    · exact congrArg some veiled
    · exact same.records key known
  cap := same.cap
  blobs := same.blobs
  listing := same.listing

theorem erase (same : w.SameUpTo knows (Record.veil reads) w') (key : RecordKey) :
    SameUpTo knows (Record.veil reads) { w with store := w.store.erase key }
      { w' with store := w'.store.erase key } where
  records key' known := by
    simp only [MemStore.getRaw_erase]
    split
    · rfl
    · exact same.records key' known
  cap := same.cap
  blobs := same.blobs
  listing := same.listing

/-- A planned write does the same to both. -/
theorem write [Blake3] (same : w.SameUpTo knows (Record.veil reads) w') (nowMs : Int) {r r' : Record}
    (own : r.key = r'.key) (expected : Option Revision) {plan : MemStore.PutPlanner}
    (planned : (plan (w.store.getRaw r.key) r expected nowMs w.store.cap).veil reads =
      (plan (w'.store.getRaw r'.key) r' expected nowMs w'.store.cap).veil reads) :
    SameUpTo knows (Record.veil reads) { w with store := (w.store.write nowMs r expected plan).1 }
        { w' with store := (w'.store.write nowMs r' expected plan).1 } ∧
      BothEnd (fun a b => a.veil reads = b.veil reads) (· = ·)
        (w.store.write nowMs r expected plan).2 (w'.store.write nowMs r' expected plan).2 := by
  unfold MemStore.write
  revert planned
  cases plan (w.store.getRaw r.key) r expected nowMs w.store.cap <;>
    cases plan (w'.store.getRaw r'.key) r' expected nowMs w'.store.cap <;> intro planned <;>
    simp only [PutPlan.veil, reduceCtorEq, PutPlan.write.injEq, PutPlan.conflict.injEq,
      PutPlan.rejected.injEq] at planned
  case write.write stored stored' =>
    refine ⟨same.insert planned, ?_⟩
    have revision := (Record.veil_eq_iff.mp planned).revision
    simp only [BothEnd, PutResult.veil, revision]
  case conflict.conflict c c' => exact ⟨same, congrArg PutResult.conflict planned⟩
  case notFound.notFound => exact ⟨same, congrArg CoreError.notFound own⟩
  case rejected.rejected reason reason' => exact ⟨same, congrArg CoreError.invalid planned⟩

theorem put [Blake3] (same : w.SameUpTo knows (Record.veil reads) w') (nowMs : Int) {r r' : Record}
    (known : knows r.key.ns = true) (supplied : r.SameSupplied reads r')
    (expected : Option Revision) :
    SameUpTo knows (Record.veil reads) { w with store := (w.store.put nowMs r expected).1 }
        { w' with store := (w'.store.put nowMs r' expected).1 } ∧
      BothEnd (fun a b => a.veil reads = b.veil reads) (· = ·)
        (w.store.put nowMs r expected).2 (w'.store.put nowMs r' expected).2 := by
  apply same.write nowMs supplied.key expected
  rw [← supplied.key, ← same.cap]
  exact veil_planPut (same.records r.key known) (same.getRaw known).2 supplied expected nowMs _

theorem putRaw [Blake3] (same : w.SameUpTo knows (Record.veil reads) w') (nowMs : Int)
    {r : Record} (known : knows r.key.ns = true) (expected : Option Revision) :
    SameUpTo knows (Record.veil reads) { w with store := (w.store.putRaw nowMs r expected).1 }
        { w' with store := (w'.store.putRaw nowMs r expected).1 } ∧
      BothEnd (fun a b => a.veil reads = b.veil reads) (· = ·)
        (w.store.putRaw nowMs r expected).2 (w'.store.putRaw nowMs r expected).2 := by
  apply same.write nowMs rfl expected
  rw [← same.cap]
  exact veil_planPutRaw (same.records r.key known) (same.getRaw known).2 expected nowMs _

theorem deleteAs [Blake3] (same : w.SameUpTo knows (Record.veil reads) w') (nowMs : Int)
    {key : RecordKey} (known : knows key.ns = true) (expected : Option Revision)
    (author : Option Identity) :
    SameUpTo knows (Record.veil reads)
      { w with store := (w.store.deleteAs nowMs key expected author).1 }
        { w' with store := (w'.store.deleteAs nowMs key expected author).1 } ∧
      BothEnd (fun a b => a.veil reads = b.veil reads) (· = ·)
        (w.store.deleteAs nowMs key expected author).2
        (w'.store.deleteAs nowMs key expected author).2 := by
  have planned := veil_planDelete (same.records key known) expected nowMs w.store.cap author
  unfold MemStore.deleteAs
  rw [← same.cap]
  revert planned
  cases planDelete (w.store.getRaw key) expected nowMs w.store.cap author <;>
    cases planDelete (w'.store.getRaw key) expected nowMs w.store.cap author <;> intro planned <;>
    simp only [DeletePlan.veil, reduceCtorEq, DeletePlan.write.injEq, DeletePlan.conflict.injEq]
      at planned
  case write.write stored stored' => exact ⟨same.insert planned, rfl⟩
  case noop.noop => exact ⟨same, rfl⟩
  case conflict.conflict c c' => exact ⟨same, congrArg DeleteResult.conflict planned⟩

theorem purge (same : w.SameUpTo knows (Record.veil reads) w') {key : RecordKey}
    (known : knows key.ns = true) (expected : Revision) :
    SameUpTo knows (Record.veil reads) { w with store := (w.store.purge key expected).1 }
        { w' with store := (w'.store.purge key expected).1 } ∧
      BothEnd (fun a b => a.veil reads = b.veil reads) (· = ·)
        (w.store.purge key expected).2 (w'.store.purge key expected).2 := by
  have planned := veil_planPurge (same.records key known) expected
  unfold MemStore.purge
  revert planned
  cases planPurge (w.store.getRaw key) expected <;>
    cases planPurge (w'.store.getRaw key) expected <;> intro planned <;>
    simp only [PurgePlan.veil, reduceCtorEq, PurgePlan.conflict.injEq] at planned
  case remove.remove => exact ⟨same.erase key, rfl⟩
  case noop.noop => exact ⟨same, rfl⟩
  case conflict.conflict c c' => exact ⟨same, congrArg DeleteResult.conflict planned⟩

/-- The blobs are in plain sight. -/
theorem putBlob [Blake3] (same : w.SameUpTo knows (Record.veil reads) w') (content : Bytes) :
    (w.putBlob content).SameUpTo knows (Record.veil reads) (w'.putBlob content) :=
  ⟨same.records, same.cap, by simp only [Backend.putBlob, same.blobs], same.listing⟩

theorem deleteBlob (same : w.SameUpTo knows (Record.veil reads) w') (hash : ContentHash) :
    (w.deleteBlob hash).SameUpTo knows (Record.veil reads) (w'.deleteBlob hash) :=
  ⟨same.records, same.cap, by simp only [Backend.deleteBlob, same.blobs], same.listing⟩

end Backend.SameUpTo

end Answers

end Gonzalo.Core
