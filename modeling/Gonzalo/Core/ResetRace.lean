import Gonzalo.Core.Reset

/-!
# A reset among other clients

Between two calls of a reset the other clients may make any calls of their own. Each call of
the reset is noted as it lands: the store it lands in, the store after it, and what the
reset had last read by then. A delete is conditioned on the revision that was read and on
nothing else, so that is what the report speaks of.
-/

set_option autoImplicit false

namespace Gonzalo.Core
open Gonzalo.Lib

/-- One call of a reset, as it lands. -/
structure Landing where
  req : StoreReq
  read : Option (RecordKey × Option Record)
  before : MemStore
  after : MemStore

/-- The key that the call deletes. -/
def Landing.target (self : Landing) : Option RecordKey :=
  match self.req with
  | .deleteAs key _ _ => some key
  | _ => none

/-- The call deletes the key after `r` was read there. -/
def Landing.Deletes (self : Landing) (key : RecordKey) (r : Record) : Prop :=
  self.target = some key ∧ self.read = some (key, some r)

/-- A store, what a reset last read in it, and the calls of the reset so far. -/
structure Racing where
  store : MemStore
  read : Option (RecordKey × Option Record)
  landings : List Landing

/-- Before the first call. -/
def Racing.start (s : MemStore) : Racing := ⟨s, none, []⟩

section
variable [Blake3]

/-- The store after the calls of other clients, each at its time. -/
def MemStore.meanwhile (s : MemStore) (calls : List (Int × StoreReq)) : MemStore :=
  calls.foldl (fun s call => (s.serve call.1 call.2).1) s

/-- The store has become `s'` by calls that `others` admits. -/
def MemStore.Passes (others : StoreReq → Prop) (s s' : MemStore) : Prop :=
  ∃ calls, (∀ call ∈ calls, others call.2) ∧ s' = s.meanwhile calls

/-- The world after a call of the reset lands in `s`. -/
def Racing.landed (w : Racing) (s : MemStore) (nowMs : Int) (req : StoreReq) : Racing where
  store := (s.serve nowMs req).1
  read := match req with
    | .get key => some (key, s.get key)
    | _ => w.read
  landings := w.landings ++ [⟨req, w.read, s, (s.serve nowMs req).1⟩]

/-- How a call of the reset is answered, after calls that `others` admits. -/
inductive Racing.Served (others : StoreReq → Prop) (w : Racing) :
    (req : StoreReq) → req.Ans → Racing → Prop
  | call {s : MemStore} (passed : w.store.Passes others s) (nowMs : Int) (req : StoreReq) :
      Served others w req (s.serve nowMs req).2 (w.landed s nowMs req)

/-- The runs of a reset of the namespace, or of one of its collections. -/
def ResetRuns (others : StoreReq → Prop) (keys : KeyPrefix) (author : Option Identity)
    (s : MemStore) (w : Racing) (result : Except CoreError ResetReport) : Prop :=
  Program.Runs (Racing.Served others) (.start s) (resetAs keys author) w result

/-- Nobody else makes a call. -/
def nobody : StoreReq → Prop := fun _ => False

/-- Consumer operations and raw writes. -/
def consumersAndReplicas (req : StoreReq) : Prop :=
  req.isConsumer = true ∨ ∃ record expected, req = .putRaw record expected

/-! ## What a report says -/

/-- The call leaves the keys outside the prefix alone, deletes only what was read, and spares
a live record other than `same` as the one read. -/
structure Landing.Faithful (same : Record → Record → Prop) (keys : KeyPrefix)
    (report : ResetReport) (landing : Landing) : Prop where
  outside : ∀ key, keys.matches key = false →
    landing.after.getRaw key = landing.before.getRaw key
  reads : ∀ key, landing.target = some key → ∃ r, landing.Deletes key r
  spared : ∀ key r c, landing.Deletes key r → landing.before.get key = some c → ¬ same c r →
    landing.after.getRaw key = some c ∧ key ∈ report.conflicts

/-- The call tombstones a live record `same` as the one read, or finds none. -/
def Landing.Removes (same : Record → Record → Prop) (self : Landing) (key : RecordKey)
    (r : Record) : Prop :=
  self.before.get key = none ∧ self.after = self.before ∨
    ∃ c t, self.before.get key = some c ∧ same c r ∧ self.after.getRaw key = some t ∧
      t.isTombstone = true ∧ t.parent = some c.revision

/-- The report of a reset is what its calls did. -/
structure Accounted (same : Record → Record → Prop) (keys : KeyPrefix) (landings : List Landing)
    (report : ResetReport) : Prop where
  once : (landings.filterMap Landing.target).Nodup
  faithful : ∀ landing ∈ landings, landing.Faithful same keys report
  deleted : ∀ key ∈ report.deleted, ∃ landing ∈ landings, ∃ r, landing.Deletes key r ∧
    landing.Removes same key r
  conflicts : ∀ key ∈ report.conflicts, ∃ landing ∈ landings, ∃ r c, landing.Deletes key r ∧
    landing.before.get key = some c ∧ ¬ same c r

/-- The record stored is the one read, as far as its revision tells. -/
def SameRevision (c r : Record) : Prop := c.revision = r.revision

omit [Blake3] in
/-- A key is listed once. -/
theorem MemStore.list_nodup (s : MemStore) (keys : KeyPrefix) : (s.list keys).Nodup := by
  have filed : ∀ entry ∈ s.records.toList, entry.2.key = entry.1 := fun entry listed =>
    s.keyed _ _ (Std.ExtTreeMap.mem_toList_iff_getElem?_eq_some.mp listed)
  have distinct : (s.records.toList.map fun entry => entry.2.key).Nodup := by
    rw [List.map_congr_left filed, Std.ExtTreeMap.map_fst_toList_eq_keys]
    exact Std.ExtTreeMap.nodup_keys
  rw [list, List.filter_map, List.map_map]
  exact distinct.sublist (List.filter_sublist.map _)

omit [Blake3] in
theorem Landing.Faithful.mono {same : Record → Record → Prop} {keys : KeyPrefix}
    {report report' : ResetReport} {landing : Landing} (faithful : landing.Faithful same keys report)
    (more : ∀ key ∈ report.conflicts, key ∈ report'.conflicts) :
    landing.Faithful same keys report' where
  outside := faithful.outside
  reads := faithful.reads
  spared key r c deletes stored differs :=
    (faithful.spared key r c deletes stored differs).imp_right (more key)

omit [Blake3] in
/-- Before the first call. -/
theorem Accounted.initial {same : Record → Record → Prop} (keys : KeyPrefix) :
    Accounted same keys [] {} where
  once := List.nodup_nil
  faithful := by simp
  deleted := by simp
  conflicts := by simp

omit [Blake3] in
/-- One more call, with what it adds to the report. -/
theorem Accounted.land {same : Record → Record → Prop} {keys : KeyPrefix}
    {landings : List Landing} {report report' : ResetReport} {landing : Landing}
    (held : Accounted same keys landings report)
    (fresh : ∀ key, landing.target = some key → key ∉ landings.filterMap Landing.target)
    (faithful : landing.Faithful same keys report')
    (more : ∀ key ∈ report.conflicts, key ∈ report'.conflicts)
    (deleted : ∀ key ∈ report'.deleted, key ∈ report.deleted ∨
      ∃ r, landing.Deletes key r ∧ landing.Removes same key r)
    (conflicts : ∀ key ∈ report'.conflicts, key ∈ report.conflicts ∨
      ∃ r c, landing.Deletes key r ∧ landing.before.get key = some c ∧ ¬ same c r) :
    Accounted same keys (landings ++ [landing]) report' where
  once := by
    rw [List.filterMap_append, List.nodup_append]
    refine ⟨held.once, ?_, ?_⟩
    · cases target : landing.target <;> simp [target]
    · intro key before key' now
      obtain ⟨_, listed, own⟩ := List.mem_filterMap.mp now
      rw [List.mem_singleton.mp listed] at own
      rintro rfl
      exact fresh key own before
  faithful := by
    intro l member
    rcases List.mem_append.mp member with before | now
    · exact (held.faithful l before).mono more
    · cases List.mem_singleton.mp now
      exact faithful
  deleted := by
    intro key listed
    rcases deleted key listed with before | ⟨r, now⟩
    · obtain ⟨l, member, told⟩ := held.deleted key before
      exact ⟨l, List.mem_append_left _ member, told⟩
    · exact ⟨landing, by simp, r, now⟩
  conflicts := by
    intro key listed
    rcases conflicts key listed with before | ⟨r, now⟩
    · obtain ⟨l, member, told⟩ := held.conflicts key before
      exact ⟨l, List.mem_append_left _ member, told⟩
    · exact ⟨landing, by simp, r, now⟩

/-! ## One key -/

/-- Everything a delete conditioned on a revision can do. -/
theorem MemStore.deleteAs_cases (s : MemStore) (nowMs : Int) (key : RecordKey)
    (revision : Revision) (author : Option Identity) :
    s.get key = none ∧ s.deleteAs nowMs key (some revision) author = (s, .ok .deleted) ∨
      (∃ c, s.get key = some c ∧ c.revision = revision ∧
        s.deleteAs nowMs key (some revision) author =
          (s.insert (tombstoneOf c nowMs s.cap author), .ok .deleted)) ∨
      ∃ c, s.get key = some c ∧ c.revision ≠ revision ∧
        s.deleteAs nowMs key (some revision) author =
          (s, .ok (.conflict ⟨c.key, some revision, c⟩)) := by
  unfold get deleteAs
  cases s.getRaw key with
  | none => exact .inl ⟨rfl, rfl⟩
  | some c =>
    cases dead : c.isTombstone with
    | true => exact .inl (by simp [dead, planDelete])
    | false =>
      by_cases same : c.revision = revision
      · exact .inr (.inl ⟨c, by simp [dead, same, planDelete]⟩)
      · exact .inr (.inr ⟨c, by simp [dead, same, Ne.symm same, planDelete]⟩)

variable {others : StoreReq → Prop} {keys : KeyPrefix} {author : Option Identity}

/-- A call that is no delete adds nothing to the report. -/
theorem Accounted.observe {w : Racing} {report : ResetReport}
    (held : Accounted SameRevision keys w.landings report) (s : MemStore) (nowMs : Int)
    {req : StoreReq} (reads : ∀ key expected author, req ≠ .deleteAs key expected author)
    (same : (s.serve nowMs req).1 = s) :
    Accounted SameRevision keys (w.landed s nowMs req).landings report := by
  have idle : (Landing.mk req w.read s (s.serve nowMs req).1).target = none := by
    unfold Landing.target
    split
    next key expected author is_delete => exact absurd is_delete (reads key expected author)
    next => rfl
  refine held.land ?_ ⟨?_, ?_, ?_⟩ (fun _ => id) (fun _ => .inl) fun _ => .inl
  · intro key target
    rw [idle] at target
    cases target
  · intro key _
    rw [same]
  · intro key target
    rw [idle] at target
    cases target
  · intro key r c deletes
    rw [Landing.Deletes, idle] at deletes
    cases deletes.1

/-- The report with the outcome of a delete. -/
def ResetReport.note (self : ResetReport) (key : RecordKey) : DeleteResult → ResetReport
  | .deleted => { self with deleted := self.deleted ++ [key] }
  | .conflict _ => { self with conflicts := self.conflicts ++ [key] }

/-- A delete at the revision read at its key, and what it adds to the report. -/
theorem Accounted.delete {w : Racing} {report : ResetReport} {key : RecordKey} {r : Record}
    (held : Accounted SameRevision keys w.landings report) (read : w.read = some (key, some r))
    (inside : keys.matches key = true) (fresh : key ∉ w.landings.filterMap Landing.target)
    (s : MemStore) (nowMs : Int) :
    ∃ outcome, (s.deleteAs nowMs key (some r.revision) author).2 = .ok outcome ∧
      Accounted SameRevision keys
        (w.landed s nowMs (.deleteAs key (some r.revision) author)).landings
        (report.note key outcome) := by
  obtain ⟨landing, lands⟩ : ∃ landing : Landing, landing =
    ⟨.deleteAs key (some r.revision) author, w.read, s,
      (s.deleteAs nowMs key (some r.revision) author).1⟩ := ⟨_, rfl⟩
  have logged : (w.landed s nowMs (.deleteAs key (some r.revision) author)).landings =
      w.landings ++ [landing] := by
    rw [lands]
    rfl
  have before : landing.before = s := by rw [lands]
  have target : landing.target = some key := by rw [lands, Landing.target]
  have deletes : ∀ key' r', landing.Deletes key' r' ↔ key' = key ∧ r' = r := by
    intro key' r'
    have reading : landing.read = some (key, some r) := by rw [lands, read]
    simp only [Landing.Deletes, target, reading, Option.some.injEq, Prod.mk.injEq]
    constructor
    · rintro ⟨rfl, -, rfl⟩
      exact ⟨rfl, rfl⟩
    · rintro ⟨rfl, rfl⟩
      exact ⟨rfl, rfl, rfl⟩
  have untouched : ∀ key', landing.target = some key' →
      key' ∉ w.landings.filterMap Landing.target := by
    intro key' own
    cases target.symm.trans own
    exact fresh
  have reads : ∀ key', landing.target = some key' → ∃ r', landing.Deletes key' r' := by
    intro key' own
    cases target.symm.trans own
    exact ⟨r, (deletes _ _).mpr ⟨rfl, rfl⟩⟩
  rw [logged]
  rcases s.deleteAs_cases nowMs key r.revision author with
    ⟨gone, done⟩ | ⟨c, stored, same, done⟩ | ⟨c, stored, differs, done⟩
  · have after : landing.after = s := by rw [lands, done]
    refine ⟨.deleted, by rw [done], held.land untouched ⟨?_, reads, ?_⟩ (fun _ => id) ?_ ?_⟩
    · intro key' _
      rw [after, before]
    · intro key' r' c deleted live
      obtain ⟨rfl, -⟩ := (deletes _ _).mp deleted
      rw [before, gone] at live
      cases live
    · intro key' listed
      refine (List.mem_append.mp listed).imp_right fun own => ?_
      cases List.mem_singleton.mp own
      exact ⟨r, (deletes _ _).mpr ⟨rfl, rfl⟩, .inl ⟨before ▸ gone, after.trans before.symm⟩⟩
    · exact fun _ => .inl
  · have own : c.key = key := s.key_of_getRaw (MemStore.get_eq_some.mp stored).1
    have after : landing.after = s.insert (tombstoneOf c nowMs s.cap author) := by rw [lands, done]
    refine ⟨.deleted, by rw [done], held.land untouched ⟨?_, reads, ?_⟩ (fun _ => id) ?_ ?_⟩
    · intro key' outside
      rw [after, before, MemStore.getRaw_insert, if_neg]
      rintro rfl
      rw [tombstoneOf_key, own, inside] at outside
      cases outside
    · intro key' r' c' deleted live differs
      obtain ⟨rfl, rfl⟩ := (deletes _ _).mp deleted
      rw [before, stored] at live
      cases live
      exact absurd same differs
    · intro key' listed
      refine (List.mem_append.mp listed).imp_right fun own' => ?_
      cases List.mem_singleton.mp own'
      refine ⟨r, (deletes _ _).mpr ⟨rfl, rfl⟩, .inr ⟨c, tombstoneOf c nowMs s.cap author,
        before ▸ stored, same, ?_, rfl, rfl⟩⟩
      rw [after, MemStore.getRaw_insert, tombstoneOf_key, if_pos own]
    · exact fun _ => .inl
  · have after : landing.after = s := by rw [lands, done]
    refine ⟨.conflict _, by rw [done], held.land untouched ⟨?_, reads, ?_⟩ ?_ (fun _ => .inl) ?_⟩
    · intro key' _
      rw [after, before]
    · intro key' r' c' deleted live _
      obtain ⟨rfl, rfl⟩ := (deletes _ _).mp deleted
      rw [before] at live
      rw [after]
      exact ⟨(MemStore.get_eq_some.mp live).1, by simp [ResetReport.note]⟩
    · exact fun key' listed => List.mem_append_left _ listed
    · intro key' listed
      refine (List.mem_append.mp listed).imp_right fun own => ?_
      cases List.mem_singleton.mp own
      exact ⟨r, c, (deletes _ _).mpr ⟨rfl, rfl⟩, before ▸ stored, differs⟩

/-! ### The calls of a reset -/

section Calls
variable {α : Type} {w : Racing} {post : Racing → Except CoreError α → Prop}

theorem wp_list {f : List RecordKey → StoreProgram α}
    (next : ∀ (s : MemStore) (nowMs : Int), w.store.Passes others s →
      Wp (.ofRelation (Racing.Served others)) post
      (w.landed s nowMs (.list keys)) (f (s.list keys))) :
    Wp (.ofRelation (Racing.Served others)) post w (StoreProgram.list keys >>= f) := by
  refine ⟨trivial, fun answer w' served => ?_⟩
  obtain @⟨s, passed, nowMs, -⟩ := served
  exact next s nowMs passed

theorem wp_get {key : RecordKey} {f : Option Record → StoreProgram α}
    (next : ∀ (s : MemStore) (nowMs : Int), w.store.Passes others s →
      Wp (.ofRelation (Racing.Served others)) post
      (w.landed s nowMs (.get key)) (f (s.get key))) :
    Wp (.ofRelation (Racing.Served others)) post w (StoreProgram.get key >>= f) := by
  refine ⟨trivial, fun answer w' served => ?_⟩
  obtain @⟨s, passed, nowMs, -⟩ := served
  exact next s nowMs passed

theorem wp_deleteAs {key : RecordKey} {expected : Option Revision}
    {f : DeleteResult → StoreProgram α}
    (next : ∀ (s : MemStore) (nowMs : Int), w.store.Passes others s → ∃ outcome,
      (s.deleteAs nowMs key expected author).2 = .ok outcome ∧
        Wp (.ofRelation (Racing.Served others)) post
          (w.landed s nowMs (.deleteAs key expected author)) (f outcome)) :
    Wp (.ofRelation (Racing.Served others)) post w
      (StoreProgram.deleteAs key expected author >>= f) := by
  refine ⟨trivial, fun answer w' served => ?_⟩
  obtain @⟨s, passed, nowMs, -⟩ := served
  obtain ⟨outcome, answered, holds⟩ := next s nowMs passed
  change Wp _ _ _ (Program.ofExcept (s.deleteAs nowMs key expected author).2 >>= f)
  rw [answered]
  exact holds

end Calls

/-- The turn for a key that no call has deleted yet. -/
theorem wp_resetKey_accounts {w : Racing} {report : ResetReport} {key : RecordKey}
    (held : Accounted SameRevision keys w.landings report)
    (fresh : key ∉ w.landings.filterMap Landing.target) :
    Wp (.ofRelation (Racing.Served others)) (fun w' result => ∃ report', result = .ok report' ∧
      Accounted SameRevision keys w'.landings report' ∧
      ∀ other, other ∈ w'.landings.filterMap Landing.target →
        other = key ∨ other ∈ w.landings.filterMap Landing.target) w
      (resetKey keys author report key) := by
  unfold resetKey
  split
  next => exact ⟨report, rfl, held, fun _ => .inr⟩
  next inside =>
    refine wp_get fun s nowMs _ => ?_
    have held₁ : Accounted SameRevision keys (w.landed s nowMs (.get key)).landings report :=
      held.observe _ nowMs (by simp) rfl
    have unaimed : (w.landed s nowMs (.get key)).landings.filterMap Landing.target =
        w.landings.filterMap Landing.target := by
      simp [Racing.landed, Landing.target]
    cases found : s.get key with
    | none => exact ⟨report, rfl, held₁, fun other aimed => .inr (unaimed ▸ aimed)⟩
    | some current =>
      refine wp_deleteAs fun s' nowMs' _ => ?_
      have read : (w.landed s nowMs (.get key)).read = some (key, some current) := by
        rw [← found]
        rfl
      obtain ⟨outcome, answered, held₂⟩ := @Accounted.delete _ keys author _ _ _ _ held₁ read
        (by simpa using inside) (unaimed ▸ fresh) s' nowMs'
      have aimed : ∀ other ∈ ((w.landed s nowMs (.get key)).landed s' nowMs'
          (.deleteAs key (some current.revision) author)).landings.filterMap Landing.target,
          other = key ∨ other ∈ w.landings.filterMap Landing.target := by
        intro other member
        rw [← unaimed]
        simpa [Racing.landed, Landing.target, or_comm, eq_comm] using member
      refine ⟨outcome, answered, ?_⟩
      cases outcome with
      | deleted => exact ⟨_, rfl, held₂, aimed⟩
      | conflict => exact ⟨_, rfl, held₂, aimed⟩

/-- A reset of a namespace ends, and its report is what its calls did. -/
theorem wp_resetAs_accounts (namespaced : keys.ns.isNone = false) (s : MemStore) :
    Wp (.ofRelation (Racing.Served others)) (fun w' result => ∃ report, result = .ok report ∧
      Accounted SameRevision keys w'.landings report) (.start s) (resetAs keys author) := by
  unfold resetAs
  rw [namespaced]
  refine wp_list fun s' nowMs _ => ?_
  let inv (rest : List RecordKey) (w : Racing) (report : ResetReport) : Prop :=
    Accounted SameRevision keys w.landings report ∧ rest.Nodup ∧
      ∀ key ∈ rest, key ∉ w.landings.filterMap Landing.target
  have listed : Accounted SameRevision keys
      ((Racing.start s).landed s' nowMs (.list keys)).landings {} :=
    @Accounted.observe _ keys (.start s) {} (.initial keys) s' nowMs _ (by simp) rfl
  have start : inv (s'.list keys) ((Racing.start s).landed s' nowMs (.list keys)) {} := by
    refine ⟨listed, s'.list_nodup keys, fun key _ aimed => ?_⟩
    simp [Racing.landed, Racing.start, Landing.target] at aimed
  refine Wp.foldlM inv ?_ ?_ start
  · rintro key rest w report ⟨held, once, unaimed⟩
    obtain ⟨new, once'⟩ := List.nodup_cons.mp once
    refine (wp_resetKey_accounts held (unaimed key List.mem_cons_self)).mono ?_
    rintro w' _ ⟨report', rfl, held', aimed⟩
    refine ⟨held', once', fun other later member => ?_⟩
    rcases aimed other member with rfl | before
    · exact new later
    · exact unaimed other (List.mem_cons_of_mem _ later) before
  · rintro w report ⟨held, -, -⟩
    exact ⟨report, rfl, held⟩

/-! ## A reset alone -/

theorem MemStore.Passes.eq_of_nobody {s s' : MemStore} (passed : s.Passes nobody s') : s' = s := by
  obtain ⟨calls, admitted, rfl⟩ := passed
  cases calls with
  | nil => rfl
  | cons call rest => exact (admitted call List.mem_cons_self).elim

/-- The live keys under the prefix are still to come, and the tombstones are those of `s`. -/
structure Emptying (keys : KeyPrefix) (s : MemStore) (rest : List RecordKey) (s' : MemStore) :
    Prop where
  ahead : ∀ key, s'.get key ≠ none → keys.matches key = true → key ∈ rest
  buried : ∀ key t, s.getRaw key = some t → t.isTombstone = true → s'.getRaw key = some t

/-- The next key in turn is tombstoned. -/
theorem Emptying.tombstone {s s' : MemStore} {key : RecordKey} {rest : List RecordKey}
    (held : Emptying keys s (key :: rest) s') {c : Record} (stored : s'.get key = some c)
    (nowMs : Int) (author : Option Identity) :
    Emptying keys s rest (s'.insert (tombstoneOf c nowMs s'.cap author)) := by
  obtain ⟨raw, live⟩ := MemStore.get_eq_some.mp stored
  have own : (tombstoneOf c nowMs s'.cap author).key = key :=
    (tombstoneOf_key c nowMs s'.cap author).trans (s'.key_of_getRaw raw)
  refine ⟨fun other found inside => ?_, fun other t before dead => ?_⟩
  · rw [MemStore.get, MemStore.getRaw_insert, own] at found
    split at found
    next => exact absurd rfl found
    next different =>
      exact (List.mem_cons.mp (held.ahead other found inside)).resolve_left (Ne.symm different)
  · have kept := held.buried other t before dead
    rw [MemStore.getRaw_insert, own, if_neg]
    · exact kept
    · rintro rfl
      rw [raw] at kept
      cases kept
      rw [live] at dead
      cases dead

/-- The turn for a key that nobody else writes. -/
theorem wp_resetKey_empties {s : MemStore} {w : Racing} {report : ResetReport} {key : RecordKey}
    {rest : List RecordKey} (held : Emptying keys s (key :: rest) w.store) :
    Wp (.ofRelation (Racing.Served nobody)) (fun w' result =>
      (∃ report', result = .ok report') ∧ Emptying keys s rest w'.store) w
      (resetKey keys author report key) := by
  have done : w.store.get key = none ∨ keys.matches key = false →
      Emptying keys s rest w.store := by
    intro idle
    refine ⟨fun other live inside => ?_, held.buried⟩
    rcases List.mem_cons.mp (held.ahead other live inside) with rfl | later
    · rcases idle with gone | outside
      · exact absurd gone live
      · rw [inside] at outside
        cases outside
    · exact later
  unfold resetKey
  split
  next outside => exact ⟨⟨report, rfl⟩, done (.inr (by simpa using outside))⟩
  next inside =>
    refine wp_get fun s₁ nowMs passed => ?_
    cases passed.eq_of_nobody
    cases found : w.store.get key with
    | none => exact ⟨⟨report, rfl⟩, done (.inl found)⟩
    | some current =>
      refine wp_deleteAs fun s₂ nowMs' passed' => ?_
      have same : s₂ = w.store := passed'.eq_of_nobody
      rcases s₂.deleteAs_cases nowMs' key current.revision author with
        ⟨gone, -⟩ | ⟨c, stored, -, deleted⟩ | ⟨c, stored, differs, -⟩
      · rw [same, found] at gone
        cases gone
      · have after : ((w.landed w.store nowMs (.get key)).landed s₂ nowMs'
            (.deleteAs key (some current.revision) author)).store =
              s₂.insert (tombstoneOf c nowMs' s₂.cap author) := congrArg Prod.fst deleted
        rw [same] at stored
        refine ⟨.deleted, congrArg Prod.snd deleted, ⟨_, rfl⟩, ?_⟩
        rw [after, same]
        exact held.tombstone stored nowMs' author
      · rw [same, found] at stored
        cases stored
        exact absurd rfl differs

omit [Blake3] in
theorem MemStore.list_eq_nil_iff {s : MemStore} :
    s.list keys = [] ↔ ∀ key, s.get key ≠ none → keys.matches key = false := by
  rw [List.eq_nil_iff_forall_not_mem]
  refine forall_congr' fun key => ?_
  rw [mem_list, ← Option.isSome_iff_exists, ← Option.ne_none_iff_isSome]
  simp

/-- A reset alone leaves nothing listed under the prefix, and every tombstone as it was. -/
theorem wp_resetAs_empties (namespaced : keys.ns.isNone = false) (s : MemStore) :
    Wp (.ofRelation (Racing.Served nobody)) (fun w' result => (∃ report, result = .ok report) ∧
      w'.store.list keys = [] ∧ ∀ key t, s.getRaw key = some t → t.isTombstone = true →
        w'.store.getRaw key = some t) (.start s) (resetAs keys author) := by
  unfold resetAs
  rw [namespaced]
  refine wp_list fun s' nowMs passed => ?_
  cases passed.eq_of_nobody
  have start : Emptying keys s (s.list keys)
      ((Racing.start s).landed s nowMs (.list keys)).store := by
    refine ⟨fun key live inside => ?_, fun _ _ stored _ => stored⟩
    exact MemStore.mem_list.mpr ⟨Option.ne_none_iff_exists'.mp live, inside⟩
  change Wp _ _ _ ((s.list keys).foldlM (resetKey keys author) {})
  refine Wp.foldlM (fun rest w (_ : ResetReport) => Emptying keys s rest w.store) ?_ ?_ start
  · intro key rest w report held
    refine (wp_resetKey_empties held).mono ?_
    rintro w' _ ⟨⟨report', rfl⟩, held'⟩
    exact held'
  · intro w report held
    refine ⟨⟨report, rfl⟩, MemStore.list_eq_nil_iff.mpr fun key live => ?_, held.buried⟩
    cases inside : keys.matches key with
    | false => rfl
    | true => exact absurd (held.ahead key live inside) List.not_mem_nil

/-- Where nothing is listed, a reset alone changes nothing and reports nothing. -/
theorem wp_resetAs_idle (namespaced : keys.ns.isNone = false) {s : MemStore}
    (empty : s.list keys = []) :
    Wp (.ofRelation (Racing.Served nobody)) (fun w' result => result = .ok {} ∧ w'.store = s)
      (.start s) (resetAs keys author) := by
  unfold resetAs
  rw [namespaced]
  refine wp_list fun s' nowMs passed => ?_
  cases passed.eq_of_nobody
  change Wp _ _ _ ((s.list keys).foldlM (resetKey keys author) {})
  rw [empty]
  exact ⟨rfl, rfl⟩

/-- The report of a reset among other clients is what its calls did, as far as revisions tell
records apart; a reset alone empties the prefix, keeps the tombstones, and leaves nothing for
a second one to report. -/
theorem reset_accounts (ns : String) (collection : Option String) (author : Option Identity)
    (s : MemStore) :
    (∀ others w result, ResetRuns others ⟨some ns, collection⟩ author s w result →
      ∃ report, result = .ok report ∧
        Accounted SameRevision ⟨some ns, collection⟩ w.landings report) ∧
      ∀ w result, ResetRuns nobody ⟨some ns, collection⟩ author s w result →
        w.store.list ⟨some ns, collection⟩ = [] ∧
          (∀ key t, s.getRaw key = some t → t.isTombstone = true → w.store.getRaw key = some t) ∧
          ∀ author' w' result', ResetRuns nobody ⟨some ns, collection⟩ author' w.store w' result' →
            result' = .ok {} ∧ w'.store = w.store := by
  refine ⟨fun others w result run => (wp_resetAs_accounts rfl s).runs run, ?_⟩
  intro w result run
  obtain ⟨-, empty, buried⟩ := (wp_resetAs_empties rfl s).runs run
  exact ⟨empty, buried, fun author' w' result' again => (wp_resetAs_idle rfl empty).runs again⟩

end

/-! ## Another record of the revision read -/

attribute [local instance] sampleBlake3

def teamKeys : KeyPrefix := ⟨some "team", none⟩

def teamKey : RecordKey := ⟨"team", "memory", "note"⟩

def aliceRecord : Record :=
  .create teamKey .memoryTier (.inline (asBytes "v0")) (.new (.new "alice") "example")

/-- A replica of the same revision, with metadata of its own. -/
def bobRecord : Record := { aliceRecord with metadata := .new (.new "bob") "example" }

def aliceStore : MemStore := (MemStore.empty 32 cap32_pos).insert aliceRecord

/-- The store once the replica has come to the key. -/
def bobStore : MemStore := aliceStore.meanwhile [(0, .putRaw bobRecord (some aliceRecord.revision))]

/-- The reset lists and reads the one record, and deletes the other. -/
def racedReset : Racing :=
  (((Racing.start aliceStore).landed aliceStore 0 (.list teamKeys)).landed aliceStore 0
    (.get teamKey)).landed bobStore 0 (.deleteAs teamKey (some aliceRecord.revision) none)

theorem racedReset_runs : ResetRuns consumersAndReplicas teamKeys none aliceStore racedReset
    (.ok { deleted := [teamKey] }) := by
  have alone : ∀ s : MemStore, s.Passes consumersAndReplicas s := fun s =>
    ⟨[], by simp, rfl⟩
  have listed : aliceStore.list teamKeys = [teamKey] := by decide +kernel
  have found : aliceStore.get teamKey = some aliceRecord := by decide +kernel
  have deleted : (bobStore.deleteAs 0 teamKey (some aliceRecord.revision) none).2 =
      .ok .deleted := by decide +kernel
  have raced : aliceStore.Passes consumersAndReplicas bobStore :=
    ⟨_, by simpa using .inr ⟨_, _, rfl⟩, rfl⟩
  have lists := Racing.Served.call (w := .start aliceStore) (alone _) 0 (.list teamKeys)
  have gets := Racing.Served.call (w := (Racing.start aliceStore).landed aliceStore 0
    (.list teamKeys)) (alone _) 0 (.get teamKey)
  have deletes := Racing.Served.call (w := ((Racing.start aliceStore).landed aliceStore 0
    (.list teamKeys)).landed aliceStore 0 (.get teamKey)) raced 0
      (.deleteAs teamKey (some aliceRecord.revision) none)
  simp only [MemStore.serve, Racing.landed, found, listed, deleted] at lists gets deletes
  refine .ask lists (.ask gets (.ask deletes ?_))
  exact .done _ _

/-- A record that came to the key with the revision read is deleted all the same. -/
theorem reset_deletes_replica : ¬ ∀ ns collection author s w report,
    ResetRuns consumersAndReplicas ⟨some ns, collection⟩ author s w (.ok report) →
      Accounted (fun c r => c = r) ⟨some ns, collection⟩ w.landings report := by
  intro literal
  have accounted := literal "team" none none aliceStore racedReset _ racedReset_runs
  have read : aliceStore.get teamKey = some aliceRecord := by decide +kernel
  have stored : bobStore.get teamKey = some bobRecord := by decide +kernel
  have differs : ¬ bobRecord = aliceRecord := by
    intro same
    have author := congrArg (fun r => r.metadata.author.id) same
    exact absurd author (by decide)
  have landed : (⟨.deleteAs teamKey (some aliceRecord.revision) none,
      some (teamKey, aliceStore.get teamKey), bobStore,
      (bobStore.deleteAs 0 teamKey (some aliceRecord.revision) none).1⟩ : Landing) ∈
        racedReset.landings := List.mem_append_right _ List.mem_cons_self
  have spared := (accounted.faithful _ landed).spared teamKey aliceRecord bobRecord
    ⟨rfl, by rw [read]⟩ stored differs
  simp at spared

end Gonzalo.Core
