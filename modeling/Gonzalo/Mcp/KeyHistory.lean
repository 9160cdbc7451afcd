import Gonzalo.Mcp.RecordTool
import Gonzalo.Core.Sync

/-!
# The history of one key

All records ever stored at a key, written by the program's own writers: the builders
of `gonzalo-core/src/record.rs`, the tools of `gonzalo-mcp/src/lib.rs`, `delete_as`
and `undelete`, with no purge. Optimistic concurrency and the order of `relate` rest
on every writer continuing the counter chain of the record it replaces.

`record_put` with an expected revision does not: it builds the record by
`Record::create`, whose counter is 0. The main theorem says that the chain holds in
every history in which that tool never replaces the record it expects, and the run
below it what an edit from `v0` to `v1` and back does through that tool.
-/

set_option autoImplicit false

namespace Gonzalo.Mcp
open Gonzalo.Core

/-- A store, and the records ever filed at the key under study, newest first. -/
structure KeyHistory where
  store : MemStore
  written : List Record

/-- The program's own writers. What an update or an undelete was built from may have
been read at any time; a re-creation is a create over a tombstone. -/
inductive Writer where
  | create (kind : RecordKind) (body : Body) (metadata : Meta)
  | update (read : Record) (body : Body) (metadata : Meta)
  | recordPut (arguments : Arguments)
  | deleteAs (expected : Option Revision) (author : Option Identity)
  | undelete (read : Record) (kind : RecordKind) (author : Option Identity)

section Chain

variable [Blake3] [RevisionValue]

/-- The calls a writer makes at a key. -/
inductive Writer.Calls (key : RecordKey) (nowMs : Int) : Writer → StoreReq → Prop
  | create (kind : RecordKind) (body : Body) (metadata : Meta) :
      Calls key nowMs (.create kind body metadata) (.put (.create key kind body metadata) none)
  | update (read : Record) (body : Body) (metadata : Meta) (own : read.key = key) :
      Calls key nowMs (.update read body metadata)
        (.put (read.update body metadata) (some read.revision))
  | recordPut {arguments : Arguments} {record : Record} {expected : Option Revision}
      (parsed : putArgs arguments = .ok (record, expected)) (own : record.key = key) :
      Calls key nowMs (.recordPut arguments) (.put record expected)
  | deleteAs (expected : Option Revision) (author : Option Identity) :
      Calls key nowMs (.deleteAs expected author) (.deleteAs key expected author)
  | undelete (read : Record) (kind : RecordKind) (author : Option Identity)
      (dead : read.isTombstone = true) (kept : read.deletedKind = some kind) :
      Calls key nowMs (.undelete read kind author)
        (.putRaw (restoredRecord key kind read nowMs author) (some read.revision))

/-- The only call `record_put` ever asks for is the one its arguments say. -/
theorem recordPut_calls {arguments : Arguments} {nowMs : Int} {req : StoreReq}
    (asked : (recordPut arguments).nextReq = some (.store req)) :
    ∃ key, Writer.Calls key nowMs (.recordPut arguments) req := by
  unfold recordPut at asked
  cases parsed : putArgs arguments with
  | error message => simp [parsed] at asked
  | ok call =>
    rw [parsed] at asked
    cases asked
    exact ⟨call.1.key, .recordPut parsed rfl⟩

/-- The only write an undelete may issue is a writer's call. -/
theorem undelete_calls {key : RecordKey} {nowMs : Int} {author : Option Identity}
    {found : Option Record} {record : Record} {expected : Option Revision}
    (guarded : (undeleteContract key nowMs author).guard found (.store (.putRaw record expected))) :
    ∃ writer, Writer.Calls key nowMs writer (.putRaw record expected) := by
  obtain ⟨tomb, kind, -, dead, kept, rfl, rfl⟩ := guarded
  exact ⟨_, .undelete tomb kind author dead kept⟩

/-- `record_put` is about to replace the live record it expects. -/
def Writer.Restarts (current : Option Record) : Writer → Prop
  | recordPut arguments => ∃ record c, putArgs arguments = .ok (record, some c.revision) ∧
      record.isTombstone = false ∧ current = some c ∧ c.isTombstone = false
  | _ => False

namespace KeyHistory

omit [RevisionValue] in
/-- The history after a call. -/
def after (h : KeyHistory) (nowMs : Int) (req : StoreReq) : KeyHistory where
  store := (h.store.serve nowMs req).1
  written := (h.store.files nowMs req).toList ++ h.written

/-- One writer makes its call. -/
inductive Write (key : RecordKey) (allowed : KeyHistory → Writer → Prop) (h : KeyHistory) :
    KeyHistory → Prop
  | call {writer : Writer} {nowMs : Int} {req : StoreReq} (allows : allowed h writer)
      (calls : writer.Calls key nowMs req) : Write key allowed h (h.after nowMs req)

/-- The chain can go on: the stored counter has a successor, and the writer is no
`record_put` over the record it expects. -/
def Continues (key : RecordKey) (h : KeyHistory) (writer : Writer) : Prop :=
  (∀ c, h.store.getRaw key = some c → c.revision.counter ≠ maxCounter) ∧
    ¬ writer.Restarts (h.store.getRaw key)

/-- A put or a delete that expects `stale` writes nothing. A put is told so; a delete is
told the conflict exactly when the key is live, and is otherwise answered as done. -/
structure Refused (s : MemStore) (key : RecordKey) (stale : Revision) : Prop where
  put : ∀ nowMs (record : Record), record.key = key →
    (s.put nowMs record (some stale)).1 = s ∧
      ∀ rev, (s.put nowMs record (some stale)).2 ≠ .ok (.committed rev)
  delete : ∀ nowMs author, (s.deleteAs nowMs key (some stale) author).1 = s ∧
    ((∃ conflict, (s.deleteAs nowMs key (some stale) author).2 = .ok (.conflict conflict)) ↔
      ∃ c, s.getRaw key = some c ∧ c.isTombstone = false)

/-! ## One write -/

/-- What a write may file over a record whose ancestors lie below it. -/
structure Advances (current : Option Record) (key : RecordKey) (w : Record) : Prop where
  key : w.key = key
  newer : ∀ c, current = some c → c.revision.counter < w.revision.counter
  below : ∀ x ∈ w.ancestors, x.counter < w.revision.counter

omit [Blake3] [RevisionValue] in
theorem foldAncestors_below {current : Option Record} {stored : Revision} {cap : Nat}
    (sound : ∀ c, current = some c → ∀ x ∈ c.ancestors, x.counter < c.revision.counter)
    (newer : ∀ c, current = some c → c.revision.counter < stored.counter) :
    ∀ x ∈ foldAncestors stored [] current cap, x.counter < stored.counter := by
  intro x member
  obtain ⟨-, none | ⟨c, held, inherited⟩⟩ := mem_foldAncestors member
  · cases none
  · rcases List.mem_cons.mp inherited with rfl | older
    · exact newer c held
    · exact (sound c held x older).trans (newer c held)

omit [RevisionValue] in
/-- A put advances the key if the record it puts over a live one has a larger counter. -/
theorem put_advances {current : Option Record} {record w : Record} {expected : Option Revision}
    {nowMs : Int} {cap : Nat} (bare : record.ancestors = [])
    (room : ∀ c, current = some c → c.revision.counter ≠ maxCounter)
    (sound : ∀ c, current = some c → ∀ x ∈ c.ancestors, x.counter < c.revision.counter)
    (continues : ∀ c, record.isTombstone = false → current = some c → c.isTombstone = false →
      expected = some c.revision → c.revision.counter < record.revision.counter)
    (planned : planPut current record expected nowMs cap = .write w) :
    Advances current record.key w := by
  obtain ⟨live, ⟨rfl, -, rfl⟩ | ⟨t, rfl, -, -, -, rfl⟩ | ⟨c, rfl, alive, fresh, rfl⟩⟩ :=
    planPut_write planned
  · have newer : ∀ c : Record, none = some c → c.revision.counter < record.revision.counter := by
      rintro _ ⟨⟩
    refine ⟨rfl, newer, ?_⟩
    simp only [createdRecord, bare]
    exact foldAncestors_below sound newer
  · have newer : ∀ c, some t = some c → c.revision.counter < t.revision.counter + 1 := by
      rintro _ ⟨⟩
      exact lt_add_one_of_ne_max (room t rfl)
    refine ⟨rfl, newer, ?_⟩
    simp only [recreatedRecord, bare]
    exact foldAncestors_below sound newer
  · have newer : ∀ c', some c = some c' → c'.revision.counter < record.revision.counter := by
      rintro _ ⟨⟩
      exact continues c live rfl alive fresh
    refine ⟨rfl, newer, ?_⟩
    simp only [updatedRecord, bare]
    exact foldAncestors_below sound newer

omit [RevisionValue] in
/-- A delete advances the key. -/
theorem delete_advances {current : Option Record} {key : RecordKey} {w : Record}
    {expected : Option Revision} {author : Option Identity} {nowMs : Int} {cap : Nat}
    (own : ∀ c, current = some c → c.key = key)
    (room : ∀ c, current = some c → c.revision.counter ≠ maxCounter)
    (sound : ∀ c, current = some c → ∀ x ∈ c.ancestors, x.counter < c.revision.counter)
    (planned : planDelete current expected nowMs cap author = .write w) :
    Advances current key w := by
  obtain ⟨c, rfl, -, -, rfl⟩ := planDelete_write planned
  have newer : ∀ c', some c = some c' → c'.revision.counter < c.revision.counter + 1 := by
    rintro _ ⟨⟩
    exact lt_add_one_of_ne_max (room c rfl)
  exact ⟨own c rfl, newer, foldAncestors_below sound newer⟩

omit [RevisionValue] in
/-- An undelete advances the key, even over another record of the revision it read. -/
theorem undelete_advances {current : Option Record} {key : RecordKey} {kind : RecordKind}
    {read w : Record} {author : Option Identity} {nowMs : Int} {cap : Nat}
    (room : ∀ c, current = some c → c.revision.counter ≠ maxCounter)
    (sound : ∀ c, current = some c → ∀ x ∈ c.ancestors, x.counter < c.revision.counter)
    (planned : planPutRaw current (restoredRecord key kind read nowMs author)
      (some read.revision) nowMs cap = .write w) : Advances current key w := by
  obtain ⟨rfl, fresh⟩ := planPutRaw_write planned
  have newer : ∀ c, current = some c → c.revision.counter < read.revision.counter + 1 := by
    rintro c rfl
    rw [Option.some_inj.mp fresh]
    exact lt_add_one_of_ne_max (room c rfl)
  exact ⟨rfl, newer, foldAncestors_below sound newer⟩

omit [Blake3] [RevisionValue] in
theorem record?_write {plan : PutPlan} {w : Record} (filed : plan.record? = some w) :
    plan = .write w := by
  cases plan <;> cases filed
  rfl

omit [Blake3] [RevisionValue] in
theorem tombstone?_write {plan : DeletePlan} {w : Record} (filed : plan.record? = some w) :
    plan = .write w := by
  cases plan <;> cases filed
  rfl

/-- Every write of a writer that continues the chain advances the key. -/
theorem writer_advances {h : KeyHistory} {key : RecordKey} {writer : Writer} {nowMs : Int}
    {req : StoreReq} {w : Record} (calls : writer.Calls key nowMs req)
    (continues : Continues key h writer)
    (sound : ∀ c, h.store.getRaw key = some c → ∀ x ∈ c.ancestors,
      x.counter < c.revision.counter)
    (filed : h.store.files nowMs req = some w) : Advances (h.store.getRaw key) key w := by
  obtain ⟨room, forward⟩ := continues
  cases calls with
  | create kind body metadata =>
    refine @put_advances _ _ (.create key kind body metadata) _ _ _ _ rfl room sound ?_
      (record?_write filed)
    intro c live held alive fresh
    cases fresh
  | update read body metadata own =>
    subst own
    refine @put_advances _ _ (read.update body metadata) _ _ _ _ rfl room sound ?_
      (record?_write filed)
    intro c live held alive fresh
    have same : read.revision = c.revision := Option.some_inj.mp fresh
    change c.revision.counter < read.revision.counter + 1
    rw [same]
    exact lt_add_one_of_ne_max (room c held)
  | recordPut parsed own =>
    subst own
    obtain ⟨key', kind, body, rfl⟩ := putArgs_ok parsed
    refine put_advances (putRecord_ancestors _ _ _ _) room sound ?_ (record?_write filed)
    rintro c live held alive rfl
    exact absurd ⟨_, c, parsed, live, held, alive⟩ forward
  | deleteAs expected author =>
    exact delete_advances (fun c held => h.store.key_of_getRaw held) room sound
      (tombstone?_write filed)
  | undelete read kind author dead kept =>
    exact undelete_advances room sound (record?_write filed)

/-! ## Whole histories -/

/-- The chain of a history: the stored record is the last one written, counters only
grow, and ancestors lie below the record that names them. -/
structure Chained (key : RecordKey) (h : KeyHistory) : Prop where
  current : h.store.getRaw key = h.written.head?
  rising : h.written.Pairwise fun newer older =>
    older.revision.counter < newer.revision.counter
  below : ∀ r ∈ h.written, ∀ x ∈ r.ancestors, x.counter < r.revision.counter

omit [Blake3] [RevisionValue] in
/-- Filing a record that advances the key keeps the chain. -/
theorem Chained.file {key : RecordKey} {h : KeyHistory} {w : Record} (chained : Chained key h)
    (advances : Advances (h.store.getRaw key) key w) :
    Chained key ⟨h.store.insert w, w :: h.written⟩ where
  current := by simp [MemStore.getRaw_insert, advances.key]
  rising := by
    refine List.pairwise_cons.mpr ⟨fun old member => ?_, chained.rising⟩
    cases split : h.written with
    | nil =>
      rw [split] at member
      cases member
    | cons last rest =>
      have rising := chained.rising
      have held : h.store.getRaw key = some last := by rw [chained.current, split]; rfl
      rw [split] at member rising
      rcases List.mem_cons.mp member with rfl | earlier
      · exact advances.newer old held
      · exact ((List.pairwise_cons.mp rising).1 old earlier).trans (advances.newer last held)
  below := by
    rintro r member
    rcases List.mem_cons.mp member with rfl | earlier
    · exact advances.below
    · exact chained.below r earlier

theorem chained_write {key : RecordKey} {h h' : KeyHistory} (chained : Chained key h)
    (step : Write key (Continues key) h h') : Chained key h' := by
  obtain @⟨writer, nowMs, req, continues, calls⟩ := step
  have kept : ∀ key expected, req ≠ .purge key expected := by
    rintro key expected rfl
    cases calls
  have sound : ∀ c, h.store.getRaw key = some c → ∀ x ∈ c.ancestors,
      x.counter < c.revision.counter := fun c held =>
    chained.below c (List.mem_of_mem_head? (chained.current ▸ held))
  simp only [after, MemStore.serve_files h.store nowMs kept]
  cases filed : h.store.files nowMs req with
  | none => exact chained
  | some w => exact chained.file (writer_advances calls continues sound filed)

theorem chained_run {key : RecordKey} {h₀ h : KeyHistory} (chained : Chained key h₀)
    (run : Relation.ReflTransGen (Write key (Continues key)) h₀ h) : Chained key h := by
  induction run with
  | refl => exact chained
  | tail _ step ih => exact chained_write ih step

omit [RevisionValue] in
/-- A store refuses every expected revision but the one it holds. -/
theorem refused_of_ne {s : MemStore} {key : RecordKey} {c : Record} {stale : Revision}
    (held : s.getRaw key = some c) (other : stale ≠ c.revision) : Refused s key stale where
  put nowMs record own := by
    subst own
    rcases s.put_effect nowMs record (some stale) with ⟨w, planned, -⟩ | unchanged
    · obtain ⟨-, ⟨-, none, -⟩ | ⟨-, -, -, -, none, -⟩ | ⟨c', held', -, fresh, -⟩⟩ :=
        planPut_write planned
      · cases none
      · cases none
      · cases held.symm.trans held'
        exact absurd (Option.some_inj.mp fresh) other
    · exact unchanged
  delete nowMs author := by
    cases dead : c.isTombstone with
    | true => simp [MemStore.deleteAs, planDelete, held, dead]
    | false => simp [MemStore.deleteAs, planDelete, held, dead, other]

/-- In every history of a key that its writers continue: the stored record is the last
one written and each write has a larger counter than the one it replaced; no revision
occurs twice; a put that expects a revision written over since is refused, and so is a
delete as long as the key is live; and of two records never does each name the other as an
ancestor, so `relate` does not depend on which of them it is given first. -/
theorem revision_chain {key : RecordKey} {h₀ h : KeyHistory} (unwritten : h₀.written = [])
    (absent : h₀.store.getRaw key = none)
    (run : Relation.ReflTransGen (Write key (Continues key)) h₀ h) :
    h.store.getRaw key = h.written.head? ∧
      h.written.Pairwise (fun newer older => older.revision.counter < newer.revision.counter) ∧
      (h.written.map Record.revision).Nodup ∧
      (∀ old ∈ h.written.tail, Refused h.store key old.revision) ∧
      ∀ x ∈ h.written, ∀ y ∈ h.written,
        ¬ (y.revision ∈ x.ancestors ∧ x.revision ∈ y.ancestors) ∧
          (relate x y = .aAhead ↔ relate y x = .bAhead) := by
  have start : Chained key h₀ := ⟨by simp [absent, unwritten], by simp [unwritten],
    by simp [unwritten]⟩
  have chained := chained_run start run
  have apart : ∀ x ∈ h.written, ∀ y ∈ h.written,
      ¬ (y.revision ∈ x.ancestors ∧ x.revision ∈ y.ancestors) := by
    rintro x memX y memY ⟨belowX, belowY⟩
    exact lt_asymm (chained.below x memX _ belowX) (chained.below y memY _ belowY)
  refine ⟨chained.current, chained.rising, ?_, fun old member => ?_, fun x memX y memY =>
    ⟨apart x memX y memY, ?_⟩⟩
  · refine List.pairwise_map.mpr (chained.rising.imp fun lower same => ?_)
    exact lt_irrefl _ (same ▸ lower)
  · cases split : h.written with
    | nil => simp [split] at member
    | cons last rest =>
      have rising := chained.rising
      rw [split] at member rising
      have lower := (List.pairwise_cons.mp rising).1 old member
      refine refused_of_ne (by rw [chained.current, split]; rfl) fun same => ?_
      exact lt_irrefl _ (same ▸ lower)
  · have one := apart x memX y memY
    grind [relate]

end KeyHistory

end Chain

/-! ## An edit there and back -/

/-- A reader of revision objects at counter 0, for concrete runs. -/
abbrev zeroRevisionValue : RevisionValue where
  fromValue
    | .object (.cons "counter" (.number (.posInt 0)) (.cons "hash" (.string hash) .nil)) => .ok ⟨0, ⟨hash⟩⟩
    | _ => .error "invalid type"

section ThereAndBack

attribute [local instance] sampleBlake3 zeroRevisionValue

/-- What a caller of `record_put` passes to write `text`, expecting a revision with
counter 0 over the body `read`. -/
def editArguments (text : String) (read : Option String) : Arguments :=
  let revision := fun body => Json.object (.cons "counter" (.number (.posInt 0))
    (.cons "hash" (.string (ContentHash.of (asBytes body)).text) .nil))
  some (.cons "body" (.string text) (.cons "collection" (.string rustKey.collection)
    (.cons "expected_revision" (read.elim .null revision) (.cons "id" (.string rustKey.id)
      (.cons "namespace" (.string rustKey.ns) .nil)))))

/-- The call `record_put` makes of them. -/
def edit (text : String) (read : Option String) : StoreReq :=
  let expected := read.map fun body => ⟨0, .of (asBytes body)⟩
  .put (putRecord rustKey .topic text expected) expected

theorem edit_call (text : String) (read : Option String) :
    (Writer.recordPut (editArguments text read)).Calls rustKey 0 (edit text read) := by
  cases read with
  | none => exact .recordPut rfl rfl
  | some body => exact .recordPut rfl rfl

def unwritten : KeyHistory := ⟨.empty 32 cap32_pos, []⟩

/-- Created as `v0`, edited to `v1`, edited back to `v0`, each time over the revision
just read. -/
def thereAndBack : KeyHistory :=
  ((unwritten.after 0 (edit "v0" none)).after 0 (edit "v1" (some "v0"))).after 0
    (edit "v0" (some "v1"))

/-- The last write has the revision of the first, its counter is not above the one it
replaced, the last two records name each other as ancestors, and an update built from
the first record is committed over the last. -/
theorem record_put_reuses_revision :
    Relation.ReflTransGen (KeyHistory.Write rustKey fun _ _ => True) unwritten thereAndBack ∧
      ∃ first second third, thereAndBack.written = [third, second, first] ∧
        third.revision = first.revision ∧
        ¬ second.revision.counter < third.revision.counter ∧
        second.revision ∈ third.ancestors ∧ third.revision ∈ second.ancestors ∧
        ∃ rev, (thereAndBack.store.put 0 (first.update (.inline (asBytes "v2")) first.metadata)
          (some first.revision)).2 = .ok (.committed rev) := by
  refine ⟨?_, _, _, _, rfl, ?_⟩
  swap
  · exact ⟨rfl, by decide, by decide, by decide, _, rfl⟩
  exact ((Relation.ReflTransGen.single (.call trivial (edit_call "v0" none))).tail
    (.call trivial (edit_call "v1" (some "v0")))).tail (.call trivial (edit_call "v0" (some "v1")))

/-- Created through `record_put`, deleted, and created again. -/
def recreated : KeyHistory :=
  ((unwritten.after 0 (edit "v0" none)).after 0 (.deleteAs rustKey none none)).after 0
    (edit "v1" none)

/-- Once the topic is there again, a put and a delete that expect its first revision are both
refused. -/
theorem recreated_refuses : KeyHistory.Refused recreated.store rustKey ⟨0, .of (asBytes "v0")⟩ ∧
    ∃ conflict, (recreated.store.deleteAs 0 rustKey (some ⟨0, .of (asBytes "v0")⟩) none).2 =
      .ok (.conflict conflict) := by
  have created : KeyHistory.Write rustKey (KeyHistory.Continues rustKey) unwritten
      (unwritten.after 0 (edit "v0" none)) := by
    refine .call ⟨fun c held => ?_, ?_⟩ (edit_call "v0" none)
    · simp [unwritten] at held
    · rintro ⟨record, c, -, -, held, -⟩
      simp [unwritten] at held
  have deleted : KeyHistory.Write rustKey (KeyHistory.Continues rustKey)
      (unwritten.after 0 (edit "v0" none))
      ((unwritten.after 0 (edit "v0" none)).after 0 (.deleteAs rustKey none none)) := by
    refine .call ⟨fun c held => ?_, id⟩ (.deleteAs none none : Writer.Calls rustKey 0 _ _)
    have same : some (createdRecord (putRecord rustKey .topic "v0" none) 0 32) = some c := held
    cases same
    decide
  have again : KeyHistory.Write rustKey (KeyHistory.Continues rustKey)
      ((unwritten.after 0 (edit "v0" none)).after 0 (.deleteAs rustKey none none)) recreated := by
    refine .call ⟨fun c held => ?_, ?_⟩ (edit_call "v1" none)
    · have dead : c.isTombstone = true ∧ c.revision.counter = 1 := by
        cases held
        decide
      rw [dead.2]
      decide
    · rintro ⟨record, c, -, -, held, alive⟩
      cases held
      cases alive
  have chain := @KeyHistory.revision_chain _ _ rustKey _ _ rfl (by simp [unwritten])
    (((Relation.ReflTransGen.single created).tail deleted).tail again)
  have refused := chain.2.2.2.1 (createdRecord (putRecord rustKey .topic "v0" none) 0 32)
    (by decide)
  refine ⟨refused, (refused.delete 0 none).2.mpr ⟨_, chain.1, ?_⟩⟩
  decide

end ThereAndBack

end Gonzalo.Mcp
