import Gonzalo.Knowledge.Chunk
import Gonzalo.Vector.RecordIndex

/-!
# The knowledge store

`ingest`, `remove` and `open` of `gonzalo-knowledge/src/lib.rs`, over a record store, a
vector index and an embedder that may fail at any call. The chunk counts are the local state
of the programs: what they have reached stays when a program fails.
-/

set_option autoImplicit false

namespace Gonzalo.Knowledge
open Gonzalo.Core Gonzalo.Lib Gonzalo.Vector

/-- The calls that a knowledge store makes. -/
inductive KnowledgeReq where
  | get (key : RecordKey)
  | embed (text : String)
  | remove (key : RecordKey)
  | upsertMany (items : List Entry)
  | keys (filter : KeyPrefix)

def KnowledgeReq.Ans : KnowledgeReq → Type
  | get _ => Except CoreError (Option Record)
  | embed _ => Except CoreError Components
  | remove _ => Except CoreError Unit
  | upsertMany _ => Except CoreError Unit
  | keys _ => Except CoreError (List RecordKey)

def knowledgeInterface : Interface := ⟨KnowledgeReq, KnowledgeReq.Ans⟩

/-- `chunk_counts`. -/
abbrev Counts : Type := Std.ExtTreeMap RecordKey Nat compare

abbrev KnowledgeM (α : Type) : Type := Stateful knowledgeInterface Counts CoreError α

/-- Issue one call. -/
def ask (req : KnowledgeReq) : KnowledgeM req.Ans :=
  @Stateful.ask knowledgeInterface Counts CoreError req

/-- The loop `for ordinal in start..stop` that removes chunks of the record. -/
def removeChunks (key : RecordKey) (start stop : Nat) : KnowledgeM Unit :=
  (List.range' start (stop - start)).foldlM
    (fun _ ordinal => ask (.remove (chunkKey key ordinal)) >>= .ofExcept) ()

/-- The body of the loop of `ingest` that embeds the chunks. -/
def embedChunk (key : RecordKey) (items : List Entry) (piece : String × Nat) :
    KnowledgeM (List Entry) := do
  let vector ← ask (.embed piece.1) >>= .ofExcept
  return items ++ [(chunkKey key piece.2, vector)]

/-- `ingest`, once the record is split. -/
def ingestChunks (key : RecordKey) (chunks : List String) : KnowledgeM Bool := do
  let counts ← Stateful.get
  removeChunks key chunks.length (counts.getD key 0)
  let items ← chunks.zipIdx.foldlM (embedChunk key) []
  if items ≠ [] then ask (.upsertMany items) >>= .ofExcept
  Stateful.modify (·.insert key chunks.length)
  return true

/-- `ingest`. -/
def ingest [KnowledgeSerde] (key : RecordKey) : KnowledgeM Bool := do
  match ← ask (.get key) >>= .ofExcept with
  | none => return false
  | some record =>
    match ← Stateful.ofExcept (chunk record) with
    | none => return false
    | some chunks => ingestChunks key chunks

/-- `remove`. -/
def remove (key : RecordKey) : KnowledgeM Unit := do
  let counts ← Stateful.get
  removeChunks key 0 (counts.getD key 0)
  Stateful.modify (·.erase key)

/-- The body of the loop of `open`. -/
def countChunk (counts : Counts) (chunk : RecordKey) : Counts :=
  counts.insert (parentKey chunk).1
    (max (counts.getD (parentKey chunk).1 0) ((parentKey chunk).2 + 1))

/-- `open`: the chunk counts that it rebuilds. -/
def openCounts : Program knowledgeInterface CoreError Counts := do
  let listed ← @Program.request knowledgeInterface CoreError (.keys .all) >>= .ofExcept
  return listed.foldl countChunk ∅

/-! ## What the calls do -/

/-- The vectors that `embed` may answer for a text. -/
class Embedder where
  embeds : String → Components → Prop

/-- The record store and the vector index. -/
structure Surroundings where
  records : RecordKey → Option Record
  vectors : Vectors

def insertAll (vectors : Vectors) (items : List Entry) : Vectors :=
  items.foldl (fun vectors item => vectors.insert item.1 item.2) vectors

/-- How a call may be answered. Each may fail, a removal before or after its effect; a
multi-upsert that fails has applied its first items, as many as `applied` admits. -/
inductive Served [Embedder] (applied : Nat → Prop) (w : Surroundings) :
    (req : KnowledgeReq) → req.Ans → Surroundings → Prop
  | found (key : RecordKey) : Served applied w (.get key) (.ok (w.records key)) w
  | unread (key : RecordKey) (e : CoreError) : Served applied w (.get key) (.error e) w
  | embedded {text : String} {vector : Components} (answers : Embedder.embeds text vector) :
      Served applied w (.embed text) (.ok vector) w
  | unembedded (text : String) (e : CoreError) : Served applied w (.embed text) (.error e) w
  | removed (key : RecordKey) :
      Served applied w (.remove key) (.ok ()) { w with vectors := w.vectors.erase key }
  | unremoved (key : RecordKey) (e : CoreError) : Served applied w (.remove key) (.error e) w
  | removedUnheard (key : RecordKey) (e : CoreError) :
      Served applied w (.remove key) (.error e) { w with vectors := w.vectors.erase key }
  | upserted (items : List Entry) :
      Served applied w (.upsertMany items) (.ok ())
        { w with vectors := insertAll w.vectors items }
  | cutShort {items : List Entry} {n : Nat} (within : n ≤ items.length) (admitted : applied n)
      (e : CoreError) : Served applied w (.upsertMany items) (.error e)
        { w with vectors := insertAll w.vectors (items.take n) }
  | listed {filter : KeyPrefix} {keys : List RecordKey}
      (all : ∀ key, key ∈ keys ↔ key ∈ w.vectors ∧ filter.matches key = true) :
      Served applied w (.keys filter) (.ok keys) w
  | unlisted (filter : KeyPrefix) (e : CoreError) : Served applied w (.keys filter) (.error e) w

/-! ## Runs of operations -/

/-- The surroundings, and the chunk counts of the open knowledge store. -/
structure System where
  world : Surroundings
  counts : Option Counts

/-- A `new` knowledge store over an index that holds nothing. -/
def System.new (records : RecordKey → Option Record) : System := ⟨⟨records, ∅⟩, some ∅⟩

/-- One operation, or an edit of the records. What a failing multi-upsert may have applied
depends on the record and the counts before it. -/
inductive Step [KnowledgeSerde] [Embedder] (applied : Counts → RecordKey → Nat → Prop) :
    System → System → Prop
  | ingest {world world' : Surroundings} {counts counts' : Counts} {key : RecordKey}
      {result : Except CoreError Bool}
      (ran : Program.Runs (Served (applied counts key)) world (ingest key counts) world'
        (.ok (counts', result))) : Step applied ⟨world, some counts⟩ ⟨world', some counts'⟩
  | remove {world world' : Surroundings} {counts counts' : Counts} {key : RecordKey}
      {result : Except CoreError Unit}
      (ran : Program.Runs (Served (applied counts key)) world (remove key counts) world'
        (.ok (counts', result))) : Step applied ⟨world, some counts⟩ ⟨world', some counts'⟩
  | reopen {sys : System} {world' : Surroundings} {result : Except CoreError Counts}
      (ran : Program.Runs (Served fun _ => True) sys.world openCounts world' result) :
      Step applied sys ⟨world', result.toOption⟩
  | edit {sys : System} (records : RecordKey → Option Record) :
      Step applied sys { sys with world := { sys.world with records := records } }

/-- The states that a run from a new store reaches. -/
def Reached [KnowledgeSerde] [Embedder] (applied : Counts → RecordKey → Nat → Prop)
    (sys : System) : Prop :=
  ∃ records, Relation.ReflTransGen (Step applied) (.new records) sys

/-- Any prefix may be left behind. -/
def anyPrefix : Counts → RecordKey → Nat → Prop := fun _ _ _ => True

/-- What is left behind is within the recorded count of the record. -/
def withinCount (counts : Counts) (key : RecordKey) (n : Nat) : Prop := n ≤ counts.getD key 0

/-- The chunks of the record in the index are among the first `n`. -/
def Trimmed (key : RecordKey) (n : Nat) (vectors : Vectors) : Prop :=
  ∀ ordinal, chunkKey key ordinal ∈ vectors → ordinal < n

/-- Every recorded count is greater than the ordinals in the index. -/
def Covered (counts : Counts) (vectors : Vectors) : Prop :=
  ∀ key, Trimmed key (counts.getD key 0) vectors

/-- The index holds exactly the chunks of the record's body. -/
def Indexed [KnowledgeSerde] [Embedder] (key : RecordKey) (w : Surroundings) : Prop :=
  ∃ record chunks, w.records key = some record ∧ chunk record = .ok (some chunks) ∧
    ∀ ordinal, (chunkKey key ordinal ∈ w.vectors ↔ ordinal < chunks.length) ∧
      ∀ vector, w.vectors[chunkKey key ordinal]? = some vector →
        ∃ text, chunks[ordinal]? = some text ∧ Embedder.embeds text vector

/-! ## What a change of the index does to the chunks -/

theorem mem_insertAll {vectors : Vectors} {items : List Entry} {key : RecordKey} :
    key ∈ insertAll vectors items ↔ key ∈ vectors ∨ ∃ item ∈ items, item.1 = key := by
  induction items generalizing vectors with
  | nil => simp [insertAll]
  | cons item rest ih =>
    change key ∈ insertAll (vectors.insert item.1 item.2) rest ↔ _
    rw [ih, Std.ExtTreeMap.mem_insert, compare_eq_iff_eq, List.exists_mem_cons_iff]
    tauto

/-- What is at a key after a batch is of the batch, or was there before. -/
theorem getElem?_insertAll {vectors : Vectors} {items : List Entry} {key : RecordKey}
    {vector : Components} (stored : (insertAll vectors items)[key]? = some vector) :
    (key, vector) ∈ items ∨ vectors[key]? = some vector ∧ ∀ item ∈ items, item.1 ≠ key := by
  induction items generalizing vectors with
  | nil => exact .inr ⟨stored, by simp⟩
  | cons item rest ih =>
    rcases ih stored with later | ⟨before, others⟩
    · exact .inl (List.mem_cons_of_mem _ later)
    · rw [Std.ExtTreeMap.getElem?_insert] at before
      split at before
      next here =>
        rw [compare_eq_iff_eq] at here
        cases before
        exact .inl (by simp [← here])
      next other =>
        rw [compare_eq_iff_eq] at other
        exact .inr ⟨before, List.forall_mem_cons.mpr ⟨other, others⟩⟩

theorem Covered.of_subset {counts : Counts} {vectors vectors' : Vectors}
    (covered : Covered counts vectors) (fewer : ∀ key, key ∈ vectors' → key ∈ vectors) :
    Covered counts vectors' :=
  fun key ordinal present => covered key ordinal (fewer _ present)

theorem mem_erase {vectors : Vectors} {key other : RecordKey} :
    other ∈ vectors.erase key ↔ other ≠ key ∧ other ∈ vectors := by
  rw [Std.ExtTreeMap.mem_erase, Ne, compare_eq_iff_eq, eq_comm]

theorem Covered.erase {counts : Counts} {vectors : Vectors} (covered : Covered counts vectors)
    (key : RecordKey) : Covered counts (vectors.erase key) :=
  covered.of_subset fun _ present => (mem_erase.mp present).2

/-- The items of a batch are the chunks of the record, embedded. -/
def Batch [Embedder] (key : RecordKey) (pieces : List (String × Nat)) (items : List Entry) : Prop :=
  List.Forall₂ (fun item piece => item.1 = chunkKey key piece.2 ∧
    Embedder.embeds piece.1 item.2) items pieces

section
variable [Embedder] {key : RecordKey} {chunks : List String} {items : List Entry}

/-- The item at a position of the batch is the chunk of that ordinal. -/
theorem Batch.item (batch : Batch key chunks.zipIdx items) {item : Entry} {position : Nat}
    (at_ : items[position]? = some item) :
    ∃ text, chunks[position]? = some text ∧ item.1 = chunkKey key position ∧
      Embedder.embeds text item.2 := by
  obtain ⟨inside, rfl⟩ := List.getElem?_eq_some_iff.mp at_
  have short : position < chunks.zipIdx.length := by
    rw [← List.Forall₂.length_eq batch]
    exact inside
  have paired := List.Forall₂.get batch inside short
  simp only [List.get_eq_getElem, List.getElem_zipIdx, Nat.zero_add] at paired
  exact ⟨_, List.getElem?_eq_getElem _, paired⟩

theorem Batch.length (batch : Batch key chunks.zipIdx items) : items.length = chunks.length := by
  simpa using List.Forall₂.length_eq batch

/-- The first items of a batch hold the first chunks of the record, and of no other one. -/
theorem Batch.mem_take (batch : Batch key chunks.zipIdx items) {n : Nat} (within : n ≤ items.length)
    {vectors : Vectors} {other : RecordKey} {ordinal : Nat} :
    chunkKey other ordinal ∈ insertAll vectors (items.take n) ↔
      chunkKey other ordinal ∈ vectors ∨ other = key ∧ ordinal < n := by
  rw [mem_insertAll]
  refine or_congr_right ⟨?_, ?_⟩
  · rintro ⟨item, member, same⟩
    obtain ⟨position, at_⟩ := List.mem_iff_getElem?.mp member
    have inside : position < n := by
      have bound := (List.getElem?_eq_some_iff.mp at_).1
      rw [List.length_take] at bound
      omega
    rw [List.getElem?_take_of_lt inside] at at_
    obtain ⟨-, -, own, -⟩ := batch.item at_
    obtain ⟨rfl, rfl⟩ := chunkKey_inj.mp (own.symm.trans same)
    exact ⟨rfl, inside⟩
  · rintro ⟨rfl, before⟩
    have inside : ordinal < items.length := by omega
    obtain ⟨-, -, own, -⟩ := batch.item (List.getElem?_eq_getElem inside)
    refine ⟨items[ordinal], ?_, own⟩
    rw [List.mem_iff_getElem?]
    exact ⟨ordinal, by rw [List.getElem?_take_of_lt before, List.getElem?_eq_getElem inside]⟩

end

/-! ## What an operation keeps -/

section
variable [Embedder] {applied : Nat → Prop} {w : Surroundings} {counts : Counts}

/-- A removal loop that ends has removed its range of ordinals; one that fails has removed
some of it. -/
theorem removeChunks_spec (covered : Covered counts w.vectors) (key : RecordKey) (n : Nat) :
    Stateful.Spec (.ofRelation (Served applied))
      (fun w' counts' _ => counts' = counts ∧ w'.records = w.records ∧
        Covered counts w'.vectors ∧ Trimmed key n w'.vectors)
      (fun w' counts' => counts' = counts ∧ Covered counts w'.vectors) w counts
      (removeChunks key n (counts.getD key 0)) := by
  let inv (rest : List Nat) (w' : Surroundings) (counts' : Counts) (_ : Unit) : Prop :=
    counts' = counts ∧ w'.records = w.records ∧ Covered counts w'.vectors ∧
      ∀ ordinal, chunkKey key ordinal ∈ w'.vectors → ordinal < n ∨ ordinal ∈ rest
  have start : inv (List.range' n (counts.getD key 0 - n)) w counts () := by
    refine ⟨rfl, rfl, covered, fun ordinal present => ?_⟩
    have below := covered key ordinal present
    rw [List.mem_range'_1]
    omega
  refine (Stateful.Spec.foldlM inv ?_ start).mono ?_ fun _ _ => id
  · rintro ordinal rest w' _ ⟨⟩ ⟨rfl, same, covered, left⟩
    have erased := covered.erase (chunkKey key ordinal)
    refine .ask trivial fun answer w'' served => ?_
    cases served with
    | removed =>
      refine ⟨rfl, same, erased, fun other present => ?_⟩
      obtain ⟨different, before⟩ := mem_erase.mp present
      refine (left other before).imp_right fun listed => ?_
      exact (List.mem_cons.mp listed).resolve_left fun same => different (by rw [same])
    | unremoved e => exact ⟨rfl, covered⟩
    | removedUnheard e => exact ⟨rfl, erased⟩
  · rintro w' _ _ ⟨rfl, same, covered, left⟩
    exact ⟨rfl, same, covered, fun ordinal present => by simpa using left ordinal present⟩

/-- The embedding loop collects the batch of the record's chunks, and changes nothing. -/
theorem embedChunks_spec (key : RecordKey) (pieces : List (String × Nat)) :
    Stateful.Spec (.ofRelation (Served applied))
      (fun w' counts' items => counts' = counts ∧ w' = w ∧ Batch key pieces items)
      (fun w' counts' => counts' = counts ∧ w' = w) w counts
      (pieces.foldlM (embedChunk key) []) := by
  let inv (rest : List (String × Nat)) (w' : Surroundings) (counts' : Counts)
      (items : List Entry) : Prop :=
    counts' = counts ∧ w' = w ∧ ∃ done, done ++ rest = pieces ∧ Batch key done items
  have start : inv pieces w counts [] := ⟨rfl, rfl, [], rfl, .nil⟩
  refine (Stateful.Spec.foldlM inv ?_ start).mono ?_ fun _ _ => id
  · rintro piece rest _ _ items ⟨rfl, rfl, done, rfl, batch⟩
    refine .bind (.ask trivial fun answer w' served => ?_)
    cases served with
    | embedded answers =>
      refine ⟨rfl, rfl, done ++ [piece], by simp, ?_⟩
      exact List.rel_append batch (.cons ⟨rfl, answers⟩ .nil)
    | unembedded e => exact ⟨rfl, rfl⟩
  · rintro _ _ items ⟨rfl, rfl, done, all, batch⟩
    rw [List.append_nil] at all
    exact ⟨rfl, rfl, all ▸ batch⟩

variable [KnowledgeSerde]

/-- A whole batch over an index without orphans of the record. -/
theorem Batch.indexed {key : RecordKey} {chunks : List String} {items : List Entry}
    (batch : Batch key chunks.zipIdx items) (covered : Covered counts w.vectors)
    (trimmed : Trimmed key chunks.length w.vectors) {record : Record}
    (found : w.records key = some record) (split : chunk record = .ok (some chunks)) :
    Covered (counts.insert key chunks.length) (insertAll w.vectors items) ∧
      Indexed key { w with vectors := insertAll w.vectors items } := by
  have whole := List.take_length (l := items)
  have length := batch.length
  have held : ∀ other ordinal, chunkKey other ordinal ∈ insertAll w.vectors items ↔
      chunkKey other ordinal ∈ w.vectors ∨ other = key ∧ ordinal < chunks.length := by
    intro other ordinal
    rw [← length, ← batch.mem_take (Nat.le_refl _), whole]
  refine ⟨?_, record, chunks, found, split, fun ordinal => ⟨?_, ?_⟩⟩
  · intro other ordinal present
    rw [Std.ExtTreeMap.getD_insert]
    rcases (held other ordinal).mp present with before | ⟨rfl, within⟩
    · split
      next same =>
        rw [compare_eq_iff_eq] at same
        exact trimmed ordinal (same ▸ before)
      · exact covered other ordinal before
    · simpa using within
  · rw [held]
    exact ⟨fun present => present.elim (trimmed ordinal) And.right, fun within => .inr ⟨rfl, within⟩⟩
  · intro vector stored
    rcases getElem?_insertAll stored with member | ⟨before, others⟩
    · obtain ⟨position, at_⟩ := List.mem_iff_getElem?.mp member
      obtain ⟨text, listed, own, embedded⟩ := batch.item at_
      obtain ⟨-, rfl⟩ := chunkKey_inj.mp own
      exact ⟨text, listed, embedded⟩
    · -- An ordinal that was there is below the length, so the batch has replaced it.
      have inside : ordinal < items.length := by
        rw [length]
        exact trimmed ordinal (Std.ExtTreeMap.mem_iff_isSome_getElem?.mpr (by simp [before]))
      obtain ⟨-, -, own, -⟩ := batch.item (List.getElem?_eq_getElem inside)
      exact absurd own (others _ (List.getElem_mem inside))

/-- An ingest that ends keeps the counts above the ordinals, and answered `true` leaves
exactly the chunks of the body; one that fails keeps the counts above the ordinals if what a
failing multi-upsert leaves behind is within the count. -/
theorem ingest_spec (covered : Covered counts w.vectors) (key : RecordKey) :
    Stateful.Spec (.ofRelation (Served applied))
      (fun w' counts' indexed => Covered counts' w'.vectors ∧ (indexed = true → Indexed key w'))
      (fun w' counts' => (∀ n, applied n → withinCount counts key n) → Covered counts' w'.vectors)
      w counts (ingest key) := by
  refine .bind (.ask trivial fun answer w' served => ?_)
  cases served with
  | unread e => exact fun _ => covered
  | found =>
    cases found : w.records key with
    | none => exact ⟨covered, nofun⟩
    | some record =>
      refine .bind (.ofExcept ?_ fun _ _ _ => covered)
      intro chunked split
      cases chunked with
      | none => exact ⟨covered, nofun⟩
      | some chunks =>
        refine .get (.bind ((removeChunks_spec covered key chunks.length).mono ?_ ?_))
        · rintro w₁ counts₁ ⟨⟩ ⟨rfl, records, covered₁, trimmed⟩
          rw [← records] at found
          refine .bind ((embedChunks_spec key chunks.zipIdx).mono ?_ ?_)
          · rintro w₂ counts₂ items ⟨rfl, rfl, batch⟩
            have indexed := batch.indexed covered₁ trimmed found split
            split
            next filled =>
              refine .bind (.ask trivial fun answer w₃ served => ?_)
              cases served with
              | upserted => exact ⟨indexed.1, fun _ => indexed.2⟩
              | cutShort within admitted e =>
                intro bounded other ordinal present
                rcases (batch.mem_take within).mp present with before | ⟨rfl, below⟩
                · exact covered₁ other ordinal before
                · exact Nat.lt_of_lt_of_le below (bounded _ admitted)
            next empty =>
              rw [not_not] at empty
              subst empty
              exact ⟨indexed.1, fun _ => indexed.2⟩
          · rintro _ _ ⟨rfl, rfl⟩ -
            exact covered₁
        · rintro w₁ _ ⟨rfl, covered₁⟩ -
          exact covered₁

omit [KnowledgeSerde] in
/-- A removal keeps the counts above the ordinals, and one that ends leaves no chunk. -/
theorem remove_spec (covered : Covered counts w.vectors) (key : RecordKey) :
    Stateful.Spec (.ofRelation (Served applied))
      (fun w' counts' _ => Covered counts' w'.vectors ∧ Trimmed key 0 w'.vectors)
      (fun w' counts' => Covered counts' w'.vectors) w counts (remove key) := by
  refine .get (.bind ((removeChunks_spec covered key 0).mono ?_ ?_))
  · rintro w' _ ⟨⟩ ⟨rfl, -, covered', trimmed⟩
    refine ⟨fun other ordinal present => ?_, trimmed⟩
    have before := covered' other ordinal present
    rw [Std.ExtTreeMap.getD_erase]
    split
    next same =>
      rw [compare_eq_iff_eq] at same
      exact absurd (trimmed ordinal (same ▸ present)) (Nat.not_lt_zero _)
    · exact before
  · rintro w' _ ⟨rfl, covered'⟩
    exact covered'

end

/-- Counting more chunks lowers no count. -/
theorem getD_countChunk (counts : Counts) (chunk key : RecordKey) :
    counts.getD key 0 ≤ (countChunk counts chunk).getD key 0 := by
  unfold countChunk
  rw [Std.ExtTreeMap.getD_insert]
  split
  next same =>
    rw [compare_eq_iff_eq] at same
    rw [← same]
    exact Nat.le_max_left _ _
  · exact Nat.le_refl _

theorem getD_foldl_countChunk (listed : List RecordKey) (counts : Counts) (key : RecordKey) :
    counts.getD key 0 ≤ (listed.foldl countChunk counts).getD key 0 := by
  induction listed generalizing counts with
  | nil => exact Nat.le_refl _
  | cons chunk rest ih => exact Nat.le_trans (getD_countChunk counts chunk key) (ih _)

/-- The count of a record is greater than every ordinal listed. -/
theorem counted_of_listed {listed : List RecordKey} {key : RecordKey} {ordinal : Nat}
    (member : chunkKey key ordinal ∈ listed) (counts : Counts) :
    ordinal < (listed.foldl countChunk counts).getD key 0 := by
  induction listed generalizing counts with
  | nil => simp at member
  | cons chunk rest ih =>
    rcases List.mem_cons.mp member with rfl | later
    · refine Nat.lt_of_lt_of_le ?_ (getD_foldl_countChunk rest _ key)
      simp [countChunk, parentKey_chunkKey]
    · exact ih later _

/-- An `open` that ends has counted every chunk in the index. -/
theorem openCounts_spec [Embedder] {applied : Nat → Prop} (w : Surroundings) :
    Wp (.ofRelation (Served applied)) (fun w' result => w'.vectors = w.vectors ∧
      ∀ counts, result = .ok counts → Covered counts w.vectors) w openCounts := by
  unfold openCounts
  refine ⟨trivial, fun answer w' served => ?_⟩
  cases served with
  | unlisted e => exact ⟨rfl, nofun⟩
  | listed all =>
    refine ⟨rfl, ?_⟩
    rintro _ ⟨⟩ key ordinal present
    exact counted_of_listed ((all _).mpr ⟨present, rfl⟩) ∅

/-! ## Every run -/

section
variable [KnowledgeSerde] [Embedder]

/-- Where a knowledge store is open, its counts are above the ordinals in the index. -/
def System.Covered (sys : System) : Prop :=
  ∀ counts, sys.counts = some counts → Knowledge.Covered counts sys.world.vectors

theorem System.Covered.step {sys sys' : System} (covered : sys.Covered)
    (step : Step withinCount sys sys') : sys'.Covered := by
  cases step with
  | @ingest world world' counts counts' key result ran =>
    rintro _ ⟨⟩
    have ended := Wp.runs (ingest_spec (covered _ rfl) key) ran
    cases result with
    | ok indexed => exact ended.1
    | error e => exact ended fun _ => id
  | @remove world world' counts counts' key result ran =>
    rintro _ ⟨⟩
    have ended := Wp.runs (remove_spec (covered _ rfl) key) ran
    cases result with
    | ok => exact ended.1
    | error e => exact ended
  | @reopen _ world' result ran =>
    intro counts opened
    obtain ⟨same, counted⟩ := Wp.runs (openCounts_spec sys.world) ran
    change Knowledge.Covered counts world'.vectors
    rw [same]
    cases result with
    | ok counts' =>
      cases opened
      exact counted counts rfl
    | error e => cases opened
  | edit records => exact covered

/-- In every state that a run reaches in which no multi-upsert fails with more chunks left
behind than its record had counted, the counts are above the ordinals in the index; an ingest
answered `true` there leaves exactly the chunks of the body, and a removal none. -/
theorem ingest_leaves_no_orphan {sys : System} (reached : Reached withinCount sys) :
    sys.Covered ∧
      (∀ counts counts' key w', sys.counts = some counts →
        Program.Runs (Served fun _ => True) sys.world (ingest key counts) w'
          (.ok (counts', .ok true)) → Indexed key w') ∧
      ∀ counts counts' key w', sys.counts = some counts →
        Program.Runs (Served fun _ => True) sys.world (remove key counts) w'
          (.ok (counts', .ok ())) → ∀ ordinal, chunkKey key ordinal ∉ w'.vectors := by
  obtain ⟨records, run⟩ := reached
  have covered : sys.Covered := by
    induction run with
    | refl =>
      rintro _ ⟨⟩ key ordinal present
      exact absurd present Std.ExtTreeMap.not_mem_empty
    | tail _ step ih => exact ih.step step
  refine ⟨covered, ?_, ?_⟩
  · intro counts counts' key w' opened ran
    exact (Wp.runs (ingest_spec (covered _ opened) key) ran).2 rfl
  · intro counts counts' key w' opened ran ordinal present
    exact absurd ((Wp.runs (remove_spec (covered _ opened) key) ran).2 ordinal present)
      (Nat.not_lt_zero _)

end

/-! ## A batch cut short -/

def rustKey : RecordKey := ⟨"memory", "topics", "rust"⟩

def rustBody : Bytes :=
  asBytes "\x7b\"slug\":\"rust\",\"bullets\":[\"ownership\",\"lifetimes\"]\x7d"

/-- The topic after an edit that drops a bullet. -/
def shortBody : Bytes := asBytes "\x7b\"slug\":\"rust\",\"bullets\":[\"ownership\"]\x7d"

/-- The decoders, on the two bodies of one topic. -/
@[reducible] def rustSerde : KnowledgeSerde where
  memoryTier _ := .error "missing field"
  topic bytes :=
    if bytes = rustBody then .ok ⟨"rust", ["ownership", "lifetimes"]⟩
    else if bytes = shortBody then .ok ⟨"rust", ["ownership"]⟩
    else .error "missing field"
  session _ := .error "missing field"
  ticket _ := .error "missing field"
  ticketEvent _ := .error "missing field"

/-- An embedder that answers one vector for every text. -/
@[reducible] def unitEmbedder : Embedder := ⟨fun _ vector => vector = [0x3F800000]⟩

attribute [local instance] sampleBlake3 rustSerde unitEmbedder

def rustRecord : Record := .create rustKey .topic (.inline rustBody) (.new (.new "memory") "example")

def rustRecords (key : RecordKey) : Option Record := if key = rustKey then some rustRecord else none

theorem chunk_rustRecord : chunk rustRecord = .ok (some ["rust\nownership", "lifetimes"]) := by
  decide +kernel

/-- The chunks of the topic, embedded. -/
def rustItems : List Entry :=
  [(chunkKey rustKey 0, [0x3F800000]), (chunkKey rustKey 1, [0x3F800000])]

/-- The counts and the answer after the batch of the topic. -/
def afterBatch : Except CoreError Unit → Counts × Except CoreError Bool
  | .ok () => ((∅ : Counts).insert rustKey 2, .ok true)
  | .error e => (∅, .error e)

/-- The first ingest of the topic comes as far as its batch. -/
theorem ingest_rust {applied : Nat → Prop} {w' : Surroundings} {answer : Except CoreError Unit}
    (served : Served applied ⟨rustRecords, ∅⟩ (.upsertMany rustItems) answer w') :
    Program.Runs (Served applied) ⟨rustRecords, ∅⟩ (ingest rustKey ∅) w'
      (.ok (afterBatch answer)) := by
  have found : Served applied ⟨rustRecords, ∅⟩ (.get rustKey) (.ok (some rustRecord))
      ⟨rustRecords, ∅⟩ := .found rustKey
  refine .ask found ?_
  change Program.Runs _ _ ((Stateful.ofExcept (chunk rustRecord) >>= fun chunked =>
    match chunked with
    | none => pure false
    | some chunks => ingestChunks rustKey chunks : KnowledgeM Bool) ∅) _ _
  rw [chunk_rustRecord]
  refine .ask (.embedded rfl) (.ask (.embedded rfl) (.ask served ?_))
  cases answer with
  | ok => exact .done _ _
  | error e => exact .done _ _

def shortRecord : Record :=
  .create rustKey .topic (.inline shortBody) (.new (.new "memory") "example")

def shortRecords (key : RecordKey) : Option Record :=
  if key = rustKey then some shortRecord else none

theorem chunk_shortRecord : chunk shortRecord = .ok (some ["rust\nownership"]) := by
  decide +kernel

/-- The counts once both chunks are in the index. -/
def bothCounted : Counts := (∅ : Counts).insert rustKey 2

/-- What an ingest of the shorter topic does after it has removed the last chunk. -/
def replaceFirst : KnowledgeM Bool := do
  let items ← ["rust\nownership"].zipIdx.foldlM (embedChunk rustKey) []
  if items ≠ [] then ask (.upsertMany items) >>= .ofExcept
  Stateful.modify (·.insert rustKey 1)
  return true

/-- An ingest of the shorter topic comes as far as the removal of the last chunk. -/
theorem ingest_short {applied : Nat → Prop} {vectors : Vectors} {w' w'' : Surroundings}
    {answer : Except CoreError Unit} {result : Except CoreError (Counts × Except CoreError Bool)}
    (served : Served applied ⟨shortRecords, vectors⟩ (.remove (chunkKey rustKey 1)) answer w')
    (later : Program.Runs (Served applied) w'
      ((Stateful.ofExcept answer >>= fun _ => replaceFirst : KnowledgeM Bool) bothCounted) w''
      result) :
    Program.Runs (Served applied) ⟨shortRecords, vectors⟩ (ingest rustKey bothCounted) w'' result := by
  have found : Served applied ⟨shortRecords, vectors⟩ (.get rustKey) (.ok (some shortRecord))
      ⟨shortRecords, vectors⟩ := .found rustKey
  have counted : bothCounted.getD rustKey 0 = 2 := by simp [bothCounted]
  refine .ask found ?_
  change Program.Runs _ _ ((Stateful.ofExcept (chunk shortRecord) >>= fun chunked =>
    match chunked with
    | none => pure false
    | some chunks => ingestChunks rustKey chunks : KnowledgeM Bool) bothCounted) _ _
  rw [chunk_shortRecord]
  change Program.Runs _ _ ((removeChunks rustKey 1 (bothCounted.getD rustKey 0) >>= fun _ =>
    replaceFirst : KnowledgeM Bool) bothCounted) _ _
  rw [counted]
  cases answer with
  | ok => exact .ask served later
  | error e => exact .ask served later

/-- The chunks of the shorter topic, embedded. -/
def shortItems : List Entry := [(chunkKey rustKey 0, [0x3F800000])]

/-- The topic is ingested and loses a bullet; one ingest of it fails at its removal. -/
theorem reached_short : Reached withinCount
    ⟨⟨shortRecords, insertAll ∅ rustItems⟩, some bothCounted⟩ := by
  have ingested : Step withinCount (.new rustRecords)
      ⟨⟨rustRecords, insertAll ∅ rustItems⟩, some bothCounted⟩ :=
    .ingest (ingest_rust (.upserted rustItems))
  have edited : Step withinCount ⟨⟨rustRecords, insertAll ∅ rustItems⟩, some bothCounted⟩
      ⟨⟨shortRecords, insertAll ∅ rustItems⟩, some bothCounted⟩ := .edit shortRecords
  have failed : Step withinCount ⟨⟨shortRecords, insertAll ∅ rustItems⟩, some bothCounted⟩
      ⟨⟨shortRecords, insertAll ∅ rustItems⟩, some bothCounted⟩ :=
    .ingest (ingest_short (.unremoved (chunkKey rustKey 1) (.backend "unavailable"))
      (.done _ _))
  exact ⟨rustRecords, ((Relation.ReflTransGen.single ingested).tail edited).tail failed⟩

/-- The ingest after that leaves exactly the one chunk of the shorter body. -/
theorem ingest_short_indexed :
    Indexed rustKey ⟨shortRecords, insertAll ((insertAll ∅ rustItems).erase (chunkKey rustKey 1))
      shortItems⟩ := by
  have last := @ingest_short (fun _ => True) (insertAll ∅ rustItems) _ _ _ _
    (.removed (chunkKey rustKey 1)) (.ask (.embedded rfl) (.ask (.upserted shortItems) (.done _ _)))
  exact (ingest_leaves_no_orphan reached_short).2.1 bothCounted _ rustKey _ rfl last

/-- A first ingest whose batch fails after its first item leaves a chunk that no count is
above. -/
theorem cut_batch_orphans : ¬ ∀ sys, Reached anyPrefix sys → sys.Covered := by
  intro covered
  have cut : Served (anyPrefix ∅ rustKey) ⟨rustRecords, ∅⟩ (.upsertMany rustItems)
      (.error (.backend "unavailable")) ⟨rustRecords, insertAll ∅ (rustItems.take 1)⟩ :=
    .cutShort (by decide) trivial _
  have step := Step.ingest (ingest_rust cut)
  have left : chunkKey rustKey 0 ∈ insertAll ∅ (rustItems.take 1) := by
    rw [mem_insertAll]
    exact .inr ⟨_, List.mem_cons_self, rfl⟩
  have below := covered _ ⟨rustRecords, .single step⟩ ∅ rfl rustKey 0 left
  rw [Std.ExtTreeMap.getD_empty] at below
  exact absurd below (Nat.lt_irrefl 0)

end Gonzalo.Knowledge
