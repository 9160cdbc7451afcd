import Gonzalo.Vector.Linearizability

/-!
# Verifying what was committed

`verify_shard_blobs` of `gonzalo-vector/src/record_index.rs`, in a commit of a handle on a
store of which one thing is known: a blob it has accepted is named by its content. Any call
may fail or answer anything else, and the shards uploaded may be gone when they are looked
for.
-/

set_option autoImplicit false

namespace Gonzalo.Vector
open Gonzalo.Core Gonzalo.Lib

/-- A call of the store with its answer. -/
structure Call where
  req : BackendReq
  answer : req.Ans

abbrev CallLog : Type := List Call

section Rebuilding

variable [Blake3]

/-- A store that may answer anything, but names a blob it accepts by its content. The log
gets the call. -/
def Answers (log : CallLog) (req : BackendReq) (answer : req.Ans) (log' : CallLog) : Prop :=
  log' = log ++ [⟨req, answer⟩] ∧
    ∀ content hash, (⟨req, answer⟩ : Call) = ⟨.putBlob content, .ok hash⟩ → hash = .of content

omit [Blake3] in
/-- A put of the record has committed. -/
def Won (log : CallLog) (record : Record) : Prop :=
  ∃ expected revision, (⟨.store (.put record expected), .ok (.committed revision)⟩ : Call) ∈ log

omit [Blake3] in
/-- The last call was one on a blob, and the store failed it. -/
def BlobFailed (log : CallLog) : Prop :=
  ∃ earlier e, (∃ hash, log = earlier ++ [⟨.hasBlob hash, .error e⟩]) ∨
    ∃ content, log = earlier ++ [⟨.putBlob content, .error e⟩]

/-- The handle's shard encodes to bytes that were uploaded under the hash. -/
def Reproduces (log : CallLog) (handle : RecordVectorIndex) (id : UInt16) (hash : ContentHash) :
    Prop :=
  hash = .of (encodeShard handle.dim (collectShard handle id)) ∧
    (⟨.putBlob (encodeShard handle.dim (collectShard handle id)), .ok hash⟩ : Call) ∈ log

/-- The record is a manifest whose hash of each of these shards is that of the bytes which
the shard in memory encodes to. -/
def Rebuilt (log : CallLog) (handle : RecordVectorIndex) (dirty : List UInt16) (record : Record)
    [ManifestJson] : Prop :=
  ∃ m : VectorManifest, record.body = m.toBody ∧ ∀ id ∈ dirty, ∃ hash,
    m.entries[id]? = some hash ∧ Reproduces log handle id hash

/-! ## A handle keeps its dimension -/

omit [Blake3] in
/-- What no part of a handle's work changes. -/
structure Steady (s s' : RecordVectorIndex) : Prop where
  dim : s'.dim = s.dim
  shards : s'.shards = s.shards
  uniform : Uniform s'.dim s'.inner

omit [Blake3] in
theorem Steady.refl {s : RecordVectorIndex} (uniform : Uniform s.dim s.inner) : Steady s s :=
  ⟨rfl, rfl, uniform⟩

omit [Blake3] in
theorem Steady.trans {s s' s'' : RecordVectorIndex} (first : Steady s s') (second : Steady s' s'') :
    Steady s s'' :=
  ⟨second.dim.trans first.dim, second.shards.trans first.shards, second.uniform⟩

omit [Blake3] in
theorem uniform_insertAll {dim : Nat} {entries : List Entry} {inner : Vectors}
    (uniform : Uniform dim inner) (wide : ∀ entry ∈ entries, entry.2.length = dim) :
    Uniform dim (entries.foldl (fun inner entry => inner.insert entry.1 entry.2) inner) := by
  induction entries generalizing inner with
  | nil => exact uniform
  | cons entry rest ih =>
    apply ih (uniform.insert (wide entry (by simp)))
    exact fun e later => wide e (List.mem_cons_of_mem _ later)

theorem clearShard_steady {s : RecordVectorIndex} (uniform : Uniform s.dim s.inner) (id : UInt16) :
    ∃ s', clearShard id s = .done (s', .ok ()) ∧ Steady s s' := by
  obtain ⟨inner, ran, lookup⟩ := clearShard_run id s
  refine ⟨_, ran, rfl, rfl, fun key vector stored => ?_⟩
  rw [lookup] at stored
  split at stored
  · cases stored
  · exact uniform key vector stored

/-- Whatever the bytes are, memory keeps its dimension. -/
theorem applyShardBytes_steady {s : RecordVectorIndex} (uniform : Uniform s.dim s.inner)
    (id : UInt16) (bytes : Bytes) :
    ∃ s' result, applyShardBytes id bytes s = .done (s', result) ∧ Steady s s' := by
  unfold applyShardBytes
  cases read : decodeShard bytes with
  | error e => exact ⟨s, .error e, rfl, .refl uniform⟩
  | ok shard =>
    obtain ⟨dim, entries⟩ := shard
    change ∃ s' result, (if dim ≠ s.dim then _ else _ : IndexM Unit) s = _ ∧ _
    by_cases same : dim = s.dim
    · subst same
      rw [if_neg (not_not.mpr rfl)]
      obtain ⟨cleared, ran, steady⟩ := clearShard_steady uniform id
      have wide : ∀ entry ∈ entries, entry.2.length = cleared.dim := fun entry member =>
        ((decodeShard_fits read).entries entry member).vector.trans steady.dim.symm
      have load := upsert_all steady.uniform wide
      refine ⟨_, _, (run_bind ran).trans load, steady.trans ⟨rfl, rfl, ?_⟩⟩
      exact uniform_insertAll steady.uniform wide
    · rw [if_pos same]
      exact ⟨s, _, rfl, .refl uniform⟩

/-! ## Single calls -/

abbrev answering : Contract backendInterface CallLog := .ofRelation Answers

omit [Blake3] in
/-- The log has grown, and no further put has committed. -/
structure Quiet (log log' : CallLog) : Prop where
  grown : ∀ call ∈ log, call ∈ log'
  won : ∀ record, Won log' record → Won log record

omit [Blake3] in
theorem Quiet.refl (log : CallLog) : Quiet log log := ⟨fun _ => id, fun _ => id⟩

omit [Blake3] in
theorem Quiet.trans {log log' log'' : CallLog} (first : Quiet log log') (second : Quiet log' log'') :
    Quiet log log'' :=
  ⟨fun call member => second.grown call (first.grown call member),
    fun record won => first.won record (second.won record won)⟩

omit [Blake3] in
/-- One more call that is no committed put. -/
theorem quiet_append {log : CallLog} {call : Call}
    (other : ∀ record expected revision,
      call ≠ ⟨.store (.put record expected), .ok (.committed revision)⟩) :
    Quiet log (log ++ [call]) := by
  refine ⟨fun c member => List.mem_append_left _ member, ?_⟩
  rintro record ⟨expected, revision, member⟩
  rcases List.mem_append.mp member with earlier | last
  · exact ⟨expected, revision, earlier⟩
  · exact absurd (List.mem_singleton.mp last).symm (other record expected revision)

omit [Blake3] in
theorem quiet_other {log : CallLog} {req : BackendReq} {answer : req.Ans}
    (other : ∀ record expected, req ≠ .store (.put record expected)) :
    Quiet log (log ++ [⟨req, answer⟩]) := by
  apply quiet_append
  intro record expected revision same
  exact other record expected (congrArg Call.req same)

variable {log : CallLog} {s : RecordVectorIndex}

theorem spec_putBlob_any {post : CallLog → RecordVectorIndex → ContentHash → Prop}
    {failed : CallLog → RecordVectorIndex → Prop} {content : Bytes}
    (stored : ∀ log', Quiet log log' →
      (⟨.putBlob content, .ok (.of content)⟩ : Call) ∈ log' → post log' s (.of content))
    (error : ∀ log', Quiet log log' → BlobFailed log' → failed log' s) :
    Stateful.Spec answering post failed log s (putBlob content) := by
  refine Stateful.Spec.ask trivial fun answer log' turned => ?_
  obtain ⟨rfl, named⟩ := turned
  cases answer with
  | error e =>
    apply error
    · exact quiet_other (by simp)
    · exact ⟨log, e, .inr ⟨content, rfl⟩⟩
  | ok hash =>
    cases named content hash rfl
    apply stored
    · exact quiet_other (by simp)
    · simp

theorem spec_hasBlob_any {post : CallLog → RecordVectorIndex → Bool → Prop}
    {failed : CallLog → RecordVectorIndex → Prop} {hash : ContentHash}
    (told : ∀ log' present, Quiet log log' → post log' s present)
    (error : ∀ log', Quiet log log' → BlobFailed log' → failed log' s) :
    Stateful.Spec answering post failed log s (hasBlob hash) := by
  refine Stateful.Spec.ask trivial fun answer log' turned => ?_
  obtain ⟨rfl, -⟩ := turned
  cases answer with
  | error e =>
    apply error
    · exact quiet_other (by simp)
    · exact ⟨log, e, .inl ⟨hash, rfl⟩⟩
  | ok present =>
    apply told
    exact quiet_other (by simp)

theorem spec_getBlob_any {post : CallLog → RecordVectorIndex → Option Bytes → Prop}
    {failed : CallLog → RecordVectorIndex → Prop} {hash : ContentHash}
    (told : ∀ log' found, Quiet log log' → post log' s found)
    (error : ∀ log', Quiet log log' → failed log' s) :
    Stateful.Spec answering post failed log s (getBlob hash) := by
  refine Stateful.Spec.ask trivial fun answer log' turned => ?_
  obtain ⟨rfl, -⟩ := turned
  cases answer with
  | error e =>
    apply error
    exact quiet_other (by simp)
  | ok found =>
    apply told
    exact quiet_other (by simp)

theorem spec_storeGet_any {post : CallLog → RecordVectorIndex → Option Record → Prop}
    {failed : CallLog → RecordVectorIndex → Prop} {key : RecordKey}
    (told : ∀ log' found, Quiet log log' → post log' s found)
    (error : ∀ log', Quiet log log' → failed log' s) :
    Stateful.Spec answering post failed log s (storeGet key) := by
  refine Stateful.Spec.ask trivial fun answer log' turned => ?_
  obtain ⟨rfl, -⟩ := turned
  cases answer with
  | error e =>
    apply error
    exact quiet_other (by simp)
  | ok found =>
    apply told
    exact quiet_other (by simp)

theorem spec_storePut_any {post : CallLog → RecordVectorIndex → PutResult → Prop}
    {failed : CallLog → RecordVectorIndex → Prop} {record : Record} {expected : Option Revision}
    (committed : ∀ revision, post
      (log ++ [⟨.store (.put record expected), .ok (.committed revision)⟩]) s (.committed revision))
    (conflict : ∀ log' c, Quiet log log' → post log' s (.conflict c))
    (error : ∀ log', Quiet log log' → failed log' s) :
    Stateful.Spec answering post failed log s (storePut record expected) := by
  refine Stateful.Spec.ask trivial fun answer log' turned => ?_
  obtain ⟨rfl, -⟩ := turned
  cases answer with
  | error e =>
    apply error
    exact quiet_append (by rintro r x rev ⟨⟩)
  | ok result =>
    cases result with
    | committed revision => exact committed revision
    | conflict c =>
      apply conflict
      exact quiet_append (by rintro r x rev ⟨⟩)

/-! ## The parts of a commit -/

/-- A part that makes no call, whether it fails or not. -/
theorem spec_steady {α : Type} {post : CallLog → RecordVectorIndex → α → Prop}
    {failed : CallLog → RecordVectorIndex → Prop} {m : IndexM α} {s' : RecordVectorIndex}
    {result : Except CoreError α} (ran : m s = .done (s', result))
    (ok : ∀ value, post log s' value) (error : failed log s') :
    Stateful.Spec answering post failed log s m := by
  unfold Stateful.Spec
  rw [ran]
  cases result with
  | ok value => exact ok value
  | error e => exact error

theorem spec_hydrateShard_any (uniform : Uniform s.dim s.inner) (m : VectorManifest) (id : UInt16) :
    Stateful.Spec answering (fun log' s' _ => Quiet log log' ∧ Steady s s')
      (fun log' s' => Quiet log log' ∧ Steady s s') log s (hydrateShard m id) := by
  unfold hydrateShard
  cases m.entries[id]? with
  | none =>
    obtain ⟨s', ran, steady⟩ := clearShard_steady uniform id
    exact spec_steady ran (fun _ => ⟨.refl log, steady⟩) ⟨.refl log, steady⟩
  | some hash =>
    refine Stateful.Spec.bind (spec_getBlob_any (fun log' found quiet => ?_) fun log' quiet => ?_)
    · cases found with
      | none => exact ⟨quiet, .refl uniform⟩
      | some bytes =>
        obtain ⟨s', result, ran, steady⟩ := applyShardBytes_steady uniform id bytes
        exact spec_steady ran (fun _ => ⟨quiet, steady⟩) ⟨quiet, steady⟩
    · exact ⟨quiet, .refl uniform⟩

/-- After a conflict a handle has loaded something of its dimension, or failed at it. -/
theorem spec_reload_any [DebugFmt] [Serde] [ManifestJson] (uniform : Uniform s.dim s.inner)
    (dirty : List UInt16) (base : Std.ExtTreeMap UInt16 ContentHash compare) :
    Stateful.Spec answering (fun log' s' _ => Quiet log log' ∧ Steady s s')
      (fun log' s' => Quiet log log' ∧ Steady s s') log s (reload dirty base) := by
  have kept : ∀ {log'}, Quiet log log' → Quiet log log' ∧ Steady s s :=
    fun quiet => ⟨quiet, .refl uniform⟩
  unfold reload
  refine Stateful.Spec.get (Stateful.Spec.bind (spec_storeGet_any ?_ fun _ => kept))
  intro log' found quiet
  cases found with
  | none => exact kept quiet
  | some winner =>
    refine Stateful.Spec.bind (Stateful.Spec.ofExcept (fun m _ => ?_) fun _ _ => kept quiet)
    refine Stateful.Spec.bind (Stateful.Spec.ofExcept (fun _ _ => ?_) fun _ _ => kept quiet)
    split
    · exact kept quiet
    · refine Stateful.Spec.bind ((Stateful.Spec.foldlM (fun _ log₁ s₁ _ => Quiet log log₁ ∧
        Steady s s₁) ?_ (kept quiet)).mono ?_ fun _ _ => id)
      · intro id rest log₁ s₁ u held
        refine (spec_hydrateShard_any held.2.uniform m id).mono ?_ ?_
        · exact fun log₂ s₂ _ later => ⟨held.1.trans later.1, held.2.trans later.2⟩
        · exact fun log₂ s₂ later => ⟨held.1.trans later.1, held.2.trans later.2⟩
      · intro log₁ s₁ u held
        exact ⟨held.1, held.2.dim, held.2.shards, held.2.uniform⟩

/-- The blobs uploaded for a batch are those of its staged shards. -/
def Staged (log : CallLog) (deltas : List Delta) (s : RecordVectorIndex)
    (blobs : Std.ExtTreeMap UInt16 ContentHash compare) : Prop :=
  ∀ (id : UInt16) (hash : ContentHash), blobs[id]? = some hash →
    hash = .of (encodeShard s.dim (stageShard s id deltas)) ∧
      (⟨.putBlob (encodeShard s.dim (stageShard s id deltas)), .ok hash⟩ : Call) ∈ log

theorem spec_putShards_any (deltas : List Delta) (dirty : List UInt16) :
    Stateful.Spec answering (fun log' s' blobs => s' = s ∧ Quiet log log' ∧
        Staged log' deltas s blobs ∧ ∀ id ∈ dirty, id ∈ blobs)
      (fun log' s' => s' = s ∧ Quiet log log') log s (putShards deltas dirty) := by
  unfold putShards
  refine (Stateful.Spec.foldlM (fun rest log' s' blobs => s' = s ∧ Quiet log log' ∧
    Staged log' deltas s blobs ∧ ∃ done, dirty = done ++ rest ∧ ∀ id ∈ done, id ∈ blobs) ?_
    ⟨rfl, .refl log, ?_, [], rfl, by simp⟩).mono ?_ fun _ _ => id
  · rintro id rest log' s' blobs ⟨rfl, quiet, staged, done, whole, covered⟩
    refine Stateful.Spec.get (Stateful.Spec.bind (spec_putBlob_any ?_ ?_))
    · intro log'' later uploaded
      refine Stateful.Spec.pure ⟨rfl, quiet.trans later, ?_, done ++ [id], by simp [whole], ?_⟩
      · intro other hash named
        rw [Std.ExtTreeMap.getElem?_insert] at named
        split at named
        next same =>
          cases Std.LawfulEqCmp.compare_eq_iff_eq.mp same
          cases named
          exact ⟨rfl, uploaded⟩
        · have earlier := staged other hash named
          exact ⟨earlier.1, later.grown _ earlier.2⟩
      · intro other member
        rw [Std.ExtTreeMap.mem_insert, Std.LawfulEqCmp.compare_eq_iff_eq]
        rcases List.mem_append.mp member with earlier | last
        · exact .inr (covered other earlier)
        · exact .inl (List.mem_singleton.mp last).symm
    · exact fun log'' later _ => ⟨rfl, quiet.trans later⟩
  · intro id hash named
    simp at named
  · rintro log' s' blobs ⟨same, quiet, staged, done, whole, covered⟩
    rw [List.append_nil] at whole
    exact ⟨same, quiet, staged, whole ▸ covered⟩

/-- Verification fails only where a call on a blob does: what it encodes again has the hash it
looks for. -/
theorem spec_verify_any {written : Std.ExtTreeMap UInt16 ContentHash compare}
    (encoded : ∀ (id : UInt16) (hash : ContentHash), written[id]? = some hash →
      hash = .of (encodeShard s.dim (collectShard s id))) :
    Stateful.Spec answering (fun log' s' _ => s' = s ∧ Quiet log log')
      (fun log' s' => s' = s ∧ Quiet log log' ∧ BlobFailed log') log s
      (verifyShardBlobs written) := by
  unfold verifyShardBlobs
  refine (Stateful.Spec.foldlM (fun rest log' s' _ => s' = s ∧ Quiet log log' ∧
    ∀ entry ∈ rest, entry ∈ written.toList) ?_ ⟨rfl, .refl log, fun _ => id⟩).mono ?_
    fun _ _ => id
  · rintro entry rest log' s' u ⟨rfl, quiet, listed⟩
    have later : ∀ e ∈ rest, e ∈ written.toList := fun e member =>
      listed e (List.mem_cons_of_mem _ member)
    have named := Std.ExtTreeMap.mem_toList_iff_getElem?_eq_some.mp (listed entry (by simp))
    refine Stateful.Spec.bind (spec_hasBlob_any (fun log₁ present told => ?_)
      fun log₁ told blamed => ⟨rfl, quiet.trans told, blamed⟩)
    split
    · exact ⟨rfl, quiet.trans told, later⟩
    · refine Stateful.Spec.get (Stateful.Spec.bind (spec_putBlob_any (fun log₂ stored _ => ?_)
        fun log₂ stored blamed => ⟨rfl, (quiet.trans told).trans stored, blamed⟩))
      rw [if_neg (not_not.mpr (encoded entry.1 entry.2 named).symm)]
      exact ⟨rfl, (quiet.trans told).trans stored, later⟩
  · rintro log' s' u ⟨same, quiet, -⟩
    exact ⟨same, quiet⟩

/-! ## A commit -/

section Commit

variable [ManifestJson]

/-- A part of a commit ends with no put that has committed, or with memory that reproduces
what the put names; an error then is one of a call on a blob. -/
def Ended (s : RecordVectorIndex) (dirty : List UInt16) (log' : CallLog)
    (s' : RecordVectorIndex) : Prop :=
  Steady s s' ∧ ∀ record, Won log' record → Rebuilt log' s' dirty record

def EndedBadly (s : RecordVectorIndex) (dirty : List UInt16) (log' : CallLog)
    (s' : RecordVectorIndex) : Prop :=
  Ended s dirty log' s' ∧ ((∀ record, ¬ Won log' record) ∨ BlobFailed log')

theorem ended_unwon {dirty : List UInt16} {log' : CallLog} {s' : RecordVectorIndex}
    (steady : Steady s s') (unwon : ∀ record, ¬ Won log record) (quiet : Quiet log log') :
    EndedBadly s dirty log' s' := by
  have still : ∀ record, ¬ Won log' record := fun record won => unwon record (quiet.won record won)
  exact ⟨⟨steady, fun record won => absurd won (still record)⟩, .inl still⟩

/-- Memory after the batch encodes to what was staged before it. -/
theorem spec_landed_any (uniform : Uniform s.dim s.inner) {deltas : List Delta}
    (wide : ∀ delta ∈ deltas, delta.Wide s.dim)
    {blobs : Std.ExtTreeMap UInt16 ContentHash compare} (staged : Staged log deltas s blobs)
    {dirty : List UInt16} (covered : ∀ id ∈ dirty, id ∈ blobs) {base : VectorManifest}
    {record : Record} (body : record.body = (withShards base blobs).toBody)
    (won : ∀ r, Won log r → r = record) (revision : Revision) :
    Stateful.Spec answering (fun log' s' _ => Ended s dirty log' s')
      (fun log' s' => EndedBadly s dirty log' s') log s (landed deltas record revision blobs) := by
  have same : ∀ id, collectShard { s with inner := replay s.inner deltas } id =
      stageShard s id deltas := fun id => (stageShard_eq s id deltas).symm
  have steady : Steady s { s with
      inner := replay s.inner deltas
      lastSeen := some { record with revision := revision } } :=
    ⟨rfl, rfl, uniform.replay wide⟩
  have rebuilt : ∀ log', Quiet log log' → Ended s dirty log' { s with
      inner := replay s.inner deltas
      lastSeen := some { record with revision := revision } } := by
    intro log' quiet
    refine ⟨steady, fun r later => ?_⟩
    cases won r (quiet.won r later)
    refine ⟨withShards base blobs, body, fun id member => ?_⟩
    obtain ⟨hash, named⟩ := Option.isSome_iff_exists.mp
      (Std.ExtTreeMap.mem_iff_isSome_getElem?.mp (covered id member))
    have uploaded := staged id hash named
    refine ⟨hash, ?_, ?_⟩
    · rw [getElem?_withShards, if_pos (covered id member)]
      exact named
    · rw [← same id] at uploaded
      exact ⟨uploaded.1, quiet.grown _ uploaded.2⟩
  unfold landed
  refine Stateful.Spec.bind ?_
  unfold Stateful.Spec
  rw [applyDeltas_run uniform wide]
  refine Stateful.Spec.modify ((spec_verify_any fun id hash named => ?_).mono ?_ ?_)
  · have uploaded := staged id hash named
    rw [← same id] at uploaded
    exact uploaded.1
  · rintro log' s' u ⟨rfl, quiet⟩
    exact rebuilt log' quiet
  · rintro log' s' ⟨rfl, quiet, blamed⟩
    exact ⟨rebuilt log' quiet, .inr blamed⟩

omit [Blake3] in
theorem commitRecord_body [Blake3] (m : VectorManifest) : (commitRecord s m).body = m.toBody := by
  unfold commitRecord
  cases s.lastSeen with
  | none => rfl
  | some current => rfl

variable [Serde]

theorem spec_commitLoop_any [DebugFmt] {deltas : List Delta} (dirty : List UInt16) (attempts : Nat)
    (uniform : Uniform s.dim s.inner) (wide : ∀ delta ∈ deltas, delta.Wide s.dim)
    (unwon : ∀ record, ¬ Won log record) :
    Stateful.Spec answering (fun log' s' _ => Ended s dirty log' s')
      (fun log' s' => EndedBadly s dirty log' s') log s (commitLoop deltas dirty attempts) := by
  induction attempts generalizing log s with
  | zero => exact Stateful.Spec.throw (ended_unwon (.refl uniform) unwon (.refl log))
  | succ attempts ih =>
    unfold commitLoop
    refine Stateful.Spec.get (Stateful.Spec.bind (Stateful.Spec.ofExcept (fun base _ => ?_)
      fun _ _ => ended_unwon (.refl uniform) unwon (.refl log)))
    refine Stateful.Spec.bind ((spec_putShards_any deltas dirty).mono ?_ ?_)
    · rintro log₁ s' blobs ⟨rfl, quiet, staged, covered⟩
      refine Stateful.Spec.bind (spec_storePut_any ?_ ?_ ?_)
      · intro revision
        have grown : ∀ {call}, call ∈ log₁ → call ∈ log₁ ++ [(⟨.store (.put (commitRecord s'
            (withShards base blobs)) (s'.lastSeen.map Record.revision)),
            .ok (.committed revision)⟩ : Call)] := fun member => List.mem_append_left _ member
        refine spec_landed_any uniform wide (fun id hash named => ?_) covered
          (commitRecord_body _) (fun r later => ?_) revision
        · have uploaded := staged id hash named
          exact ⟨uploaded.1, grown uploaded.2⟩
        · obtain ⟨expected, rev, member⟩ := later
          rcases List.mem_append.mp member with earlier | last
          · exact absurd (quiet.won r ⟨expected, rev, earlier⟩) (unwon r)
          · cases List.mem_singleton.mp last
            rfl
      · intro log₂ c after
        have unwon₂ : ∀ record, ¬ Won log₂ record := fun record won =>
          unwon record (quiet.won record (after.won record won))
        dsimp only
        split
        · exact Stateful.Spec.throw (ended_unwon (.refl uniform) unwon (quiet.trans after))
        · refine Stateful.Spec.bind ((spec_reload_any uniform dirty base.entries).mono ?_ ?_)
          · rintro log₃ s₃ u ⟨loaded, steady⟩
            have unwon₃ : ∀ record, ¬ Won log₃ record := fun record won =>
              unwon₂ record (loaded.won record won)
            refine (ih steady.uniform ?_ unwon₃).mono ?_ ?_
            · rw [steady.dim]
              exact wide
            · exact fun log₄ s₄ _ ended => ⟨steady.trans ended.1, ended.2⟩
            · exact fun log₄ s₄ ended => ⟨⟨steady.trans ended.1.1, ended.1.2⟩, ended.2⟩
          · rintro log₃ s₃ ⟨loaded, steady⟩
            exact ended_unwon steady unwon₂ loaded
      · exact fun log₂ after => ended_unwon (.refl uniform) unwon (quiet.trans after)
    · rintro log₁ s' ⟨rfl, quiet⟩
      exact ended_unwon (.refl uniform) unwon quiet

/-- Any batch whose upserts have the handle's dimension. -/
theorem spec_commit_any [DebugFmt] {deltas : List Delta} (uniform : Uniform s.dim s.inner)
    (unwon : ∀ record, ¬ Won log record) (wide : ∀ delta ∈ deltas, delta.Wide s.dim) :
    Stateful.Spec answering (fun log' s' _ => Ended s (dirtyShards s.shards deltas) log' s')
      (fun log' s' => EndedBadly s (dirtyShards s.shards deltas) log' s') log s
      (commit deltas) := by
  unfold commit
  split
  · exact Stateful.Spec.pure (ended_unwon (.refl uniform) unwon (.refl log)).1
  · refine Stateful.Spec.get ?_
    exact spec_commitLoop_any _ _ uniform wide unwon

/-- A write of a handle commits a batch that it has checked. -/
theorem spec_perform_any [DebugFmt] (uniform : Uniform s.dim s.inner) (unwon : ∀ record, ¬ Won log record)
    (op : VectorOp) :
    Stateful.Spec answering (fun log' s' _ => Ended s (dirtyShards s.shards op.deltas) log' s')
      (fun log' s' => EndedBadly s (dirtyShards s.shards op.deltas) log' s') log s
      (perform op) := by
  have unmoved : EndedBadly s (dirtyShards s.shards op.deltas) log s :=
    ended_unwon (.refl uniform) unwon (.refl log)
  unfold perform
  refine Stateful.Spec.get (Stateful.Spec.bind (Stateful.Spec.ofExcept (fun _ checked => ?_)
    fun _ _ => unmoved))
  exact spec_commit_any uniform unwon fun delta member => (checkOp_ok checked delta member).wide

/-! ## The states of a handle -/

omit [ManifestJson] [Serde] in
theorem spec_openBatch_any {schedule : List UInt16 → List UInt16} {m : VectorManifest}
    (uniform : Uniform s.dim s.inner) (batch : List UInt16) :
    Stateful.Spec answering (fun _ s' _ => Steady s s') (fun _ s' => Steady s s') log s
      (openBatch schedule m batch) := by
  unfold openBatch
  refine Stateful.Spec.bind ((Stateful.Spec.foldlM (fun _ _ s' _ => s' = s) ?_ rfl).mono
    ?_ fun _ _ => id)
  · rintro id rest log' s' fetched rfl
    unfold fetchShard
    refine Stateful.Spec.bind (Stateful.Spec.get (Stateful.Spec.bind
      (spec_getBlob_any (fun log₁ found _ => ?_) fun _ _ => .refl uniform)))
    cases found with
    | none => exact .refl uniform
    | some bytes => exact rfl
  · rintro log' s' fetched rfl
    refine (Stateful.Spec.foldlM (fun _ _ s₁ _ => Steady s' s₁) ?_ (.refl uniform)).mono
      (fun _ _ _ => id) fun _ _ => id
    intro shard rest log₁ s₁ u steady
    obtain ⟨s₂, result, ran, kept⟩ := applyShardBytes_steady steady.uniform shard.1 shard.2
    exact spec_steady ran (fun _ => steady.trans kept) (steady.trans kept)

omit [ManifestJson] [Serde] in
theorem spec_openShards_any {schedule : List UInt16 → List UInt16} {m : VectorManifest}
    (uniform : Uniform s.dim s.inner) :
    Stateful.Spec answering (fun _ s' _ => Steady s s') (fun _ s' => Steady s s') log s
      (openShards schedule m) := by
  unfold openShards
  refine (Stateful.Spec.foldlM (fun _ _ s' _ => Steady s s') ?_ (.refl uniform)).mono
    (fun _ _ _ => id) fun _ _ => id
  intro batch rest log' s' u steady
  refine (spec_openBatch_any steady.uniform batch).mono ?_ ?_
  · exact fun _ _ _ later => steady.trans later
  · exact fun _ _ later => steady.trans later

omit [ManifestJson] in
/-- A handle that opens holds vectors of its dimension, whatever it was served. -/
theorem wp_open_any [DebugFmt] (schedule : List UInt16 → List UInt16) (key : RecordKey) (space : String)
    (dim : Nat) (shards : ShardCount) :
    Wp answering (fun _ result => ∀ h, result = .ok h → Uniform h.dim h.inner) log
      (openWithShards schedule key space dim shards) := by
  unfold openWithShards callGetRaw
  refine Wp.bind_iff.mpr (Wp.bind_iff.mpr ⟨trivial, fun answer log' _ => ?_⟩)
  cases answer with
  | error e => exact fun h same => by cases same
  | ok found =>
    refine Wp.ofExcept_bind_iff.mpr ?_
    cases openRaw key found with
    | error e => exact fun h same => by cases same
    | ok existing =>
      refine Wp.ofExcept_bind_iff.mpr ?_
      cases checkExisting key space dim shards existing with
      | error e => exact fun h same => by cases same
      | ok checked =>
        have empty : Uniform (emptyHandle key space dim checked.1 existing).dim
            (emptyHandle key space dim checked.1 existing).inner := uniform_empty dim
        dsimp only
        cases checked.2 with
        | none =>
          intro h same
          cases same
          exact empty
        | some m =>
          refine Wp.bind_iff.mpr (Wp.mono ?_ (@spec_openShards_any _ log' _ schedule m empty))
          rintro log₁ (e | ⟨h', e | u⟩) held h same
          · cases same
          · cases same
          · cases same
            exact held.uniform

/-- The states that a handle can be in: opened, and after any writes and any batches committed,
with a store that answers anything. -/
inductive HandleState [DebugFmt] : RecordVectorIndex → Prop
  | opened {schedule : List UInt16 → List UInt16} {key : RecordKey} {space : String} {dim : Nat}
      {shards : ShardCount} {log : CallLog} {h : RecordVectorIndex}
      (run : Program.Runs Answers [] (openWithShards schedule key space dim shards) log (.ok h)) :
      HandleState h
  | wrote {h h' : RecordVectorIndex} {op : VectorOp} {log : CallLog} {result : Except CoreError Unit}
      (before : HandleState h)
      (run : Program.Runs Answers [] ((perform op).run h) log (.ok (h', result))) : HandleState h'
  | committed {h h' : RecordVectorIndex} {deltas : List Delta} {log : CallLog}
      {result : Except CoreError Unit} (before : HandleState h)
      (wide : ∀ delta ∈ deltas, delta.Wide h.dim)
      (run : Program.Runs Answers [] ((commit deltas).run h) log (.ok (h', result))) :
      HandleState h'

omit [Blake3] [Serde] [ManifestJson] in
theorem unwon_nil (record : Record) : ¬ Won [] record := by simp [Won]

theorem commit_ended [DebugFmt] (uniform : Uniform s.dim s.inner) {deltas : List Delta}
    (wide : ∀ delta ∈ deltas, delta.Wide s.dim) {s' : RecordVectorIndex}
    {result : Except CoreError Unit}
    (run : Program.Runs Answers [] ((commit deltas).run s) log (.ok (s', result))) :
    Ended s (dirtyShards s.shards deltas) log s' ∧
      (result = .ok () ∨ (∀ record, ¬ Won log record) ∨ BlobFailed log) := by
  have ended := Wp.runs (spec_commit_any uniform unwon_nil wide) run
  cases result with
  | ok u => exact ⟨ended, .inl rfl⟩
  | error e => exact ⟨ended.1, .inr ended.2⟩

theorem HandleState.uniform [DebugFmt] {h : RecordVectorIndex} (state : HandleState h) :
    Uniform h.dim h.inner := by
  induction state with
  | opened run => exact Wp.runs (wp_open_any _ _ _ _ _) run _ rfl
  | @wrote h h' op log result before run ih =>
    have ended := Wp.runs (spec_perform_any ih unwon_nil op) run
    cases result with
    | ok u => exact ended.1.uniform
    | error e => exact ended.1.1.uniform
  | committed before wide run ih => exact (commit_ended ih wide run).1.1.uniform

/-- Once the put of a commit has gone through, each shard that the batch touched encodes from
memory to the bytes which were uploaded for it, and whose hash the committed manifest has. The
commit succeeds then, or its last call is one on a blob that the store failed. The batch is any
of upserts and removals, in any order; its vectors have the dimension that every caller checks. -/
theorem verification_rebuilds [DebugFmt] {s s' : RecordVectorIndex} (state : HandleState s)
    {deltas : List Delta} (wide : ∀ delta ∈ deltas, delta.Wide s.dim) {log : CallLog}
    {result : Except CoreError Unit}
    (run : Program.Runs Answers [] ((commit deltas).run s) log (.ok (s', result)))
    {record : Record} (won : Won log record) :
    (∃ m : VectorManifest, record.body = m.toBody ∧
      ∀ id ∈ dirtyShards s.shards deltas, ∃ hash, m.entries[id]? = some hash ∧
        hash = .of (encodeShard s'.dim (collectShard s' id)) ∧
        (⟨.putBlob (encodeShard s'.dim (collectShard s' id)), .ok hash⟩ : Call) ∈ log) ∧
    (result = .ok () ∨ BlobFailed log) := by
  obtain ⟨ended, outcome⟩ := commit_ended state.uniform wide run
  refine ⟨ended.2 record won, ?_⟩
  rcases outcome with fine | unwon | blamed
  · exact .inl fine
  · exact absurd won (unwon record)
  · exact .inr blamed

end Commit

end Rebuilding

/-! ## Two batches, and a blob that is swept before it is verified -/

section Swept

theorem answers_stored [Blake3] (log : CallLog) (content : Bytes) :
    Answers log (.putBlob content) (.ok (.of content))
      (log ++ [⟨.putBlob content, .ok (.of content)⟩]) := by
  refine ⟨rfl, fun content' hash same => ?_⟩
  cases same
  rfl

theorem answers_other [Blake3] (log : CallLog) {req : BackendReq} {answer : req.Ans}
    (other : ∀ content, req ≠ .putBlob content) :
    Answers log req answer (log ++ [⟨req, answer⟩]) :=
  ⟨rfl, fun content _ same => absurd (congrArg Call.req same) (other content)⟩

variable [Blake3] [Serde] [ManifestJson] (s : RecordVectorIndex) (base : VectorManifest)
  (deltas : List Delta)

/-- The bytes of the one shard, as they are staged. -/
def stagedBytes : Bytes := encodeShard s.dim (stageShard s 0 deltas)

def stagedBlobs : Std.ExtTreeMap UInt16 ContentHash compare :=
  (∅ : Std.ExtTreeMap UInt16 ContentHash compare).insert 0 (.of (stagedBytes s deltas))

def sweptRecord : Record := commitRecord s (withShards base (stagedBlobs s deltas))

/-- The calls of a commit to one shard, whose blob is gone by the time it is looked for. -/
def sweptLog : CallLog :=
  [⟨.putBlob (stagedBytes s deltas), .ok (.of (stagedBytes s deltas))⟩,
    ⟨.store (.put (sweptRecord s base deltas) (s.lastSeen.map Record.revision)),
      .ok (.committed (sweptRecord s base deltas).revision)⟩,
    ⟨.hasBlob (.of (stagedBytes s deltas)), .ok false⟩,
    ⟨.putBlob (stagedBytes s deltas), .ok (.of (stagedBytes s deltas))⟩]

/-- The handle afterwards. -/
def sweptHandle : RecordVectorIndex :=
  { s with
    inner := replay s.inner deltas
    lastSeen := some (sweptRecord s base deltas) }

variable {s base deltas}

omit [Serde] [ManifestJson] in
theorem runs_putBlob (log : CallLog) (s : RecordVectorIndex) (content : Bytes) :
    Program.Runs Answers log (putBlob content s)
      (log ++ [⟨.putBlob content, .ok (.of content)⟩]) (.ok (s, .ok (.of content))) :=
  .ask (answers_stored log content) (.done _ _)

omit [Serde] in
/-- The verification uploads from memory what was staged before the commit. -/
theorem swept_verified (log : CallLog) :
    Program.Runs Answers log
      (verifyShardBlobs (stagedBlobs s deltas) (sweptHandle s base deltas))
      (log ++ [⟨.hasBlob (.of (stagedBytes s deltas)), .ok false⟩] ++
        [⟨.putBlob (stagedBytes s deltas), .ok (.of (stagedBytes s deltas))⟩])
      (.ok (sweptHandle s base deltas, .ok ())) := by
  have listed : (stagedBlobs s deltas).toList = [(0, .of (stagedBytes s deltas))] := rfl
  have encoded : encodeShard (sweptHandle s base deltas).dim
      (collectShard (sweptHandle s base deltas) 0) = stagedBytes s deltas := by
    unfold stagedBytes
    rw [stageShard_eq]
    rfl
  have restored : ∀ log : CallLog, Program.Runs Answers log
      (putBlob (encodeShard (sweptHandle s base deltas).dim
        (collectShard (sweptHandle s base deltas) 0)) (sweptHandle s base deltas))
      (log ++ [⟨.putBlob (stagedBytes s deltas), .ok (.of (stagedBytes s deltas))⟩])
      (.ok (sweptHandle s base deltas, .ok (.of (stagedBytes s deltas)))) := by
    rw [encoded]
    exact fun log => runs_putBlob log _ _
  unfold verifyShardBlobs
  rw [listed, List.foldlM_cons]
  refine Stateful.runs_bind ?_ (.done _ _)
  refine Stateful.runs_bind (.ask (@answers_other _ _ (.hasBlob (.of (stagedBytes s deltas)))
    (.ok false) (by simp)) (.done _ _)) ?_
  refine Stateful.runs_bind (.done _ _) (Stateful.runs_bind (restored _) ?_)
  rw [if_neg (not_not.mpr rfl)]
  exact .done _ _

theorem swept_runs [DebugFmt] (uniform : Uniform s.dim s.inner) (wide : ∀ delta ∈ deltas, delta.Wide s.dim)
    (based : baseManifest s = .ok base) (some : deltas.isEmpty = false)
    (one : dirtyShards s.shards deltas = [0]) :
    Program.Runs Answers [] ((commit deltas).run s) (sweptLog s base deltas)
      (.ok (sweptHandle s base deltas, .ok ())) := by
  have committed : (commit deltas).run s = commitLoop deltas [0] maxCommitAttempts s := by
    unfold commit
    rw [some, ← one]
    rfl
  have uploaded : Program.Runs Answers [] (putShards deltas [0] s)
      [⟨.putBlob (stagedBytes s deltas), .ok (.of (stagedBytes s deltas))⟩]
      (.ok (s, .ok (stagedBlobs s deltas))) :=
    Stateful.runs_bind (Stateful.runs_bind (.done _ _) (Stateful.runs_bind
      (runs_putBlob [] s (stagedBytes s deltas)) (.done _ _))) (.done _ _)
  have read : ∀ log : CallLog, Program.Runs Answers log
      ((.ofExcept (baseManifest s) : IndexM VectorManifest) s)
      log (.ok (s, .ok base)) := by
    rw [based]
    exact fun log => .done _ _
  have applied : ∀ log : CallLog, Program.Runs Answers log (applyDeltas deltas s) log
      (.ok ({ s with inner := replay s.inner deltas }, .ok ())) := by
    rw [applyDeltas_run uniform wide]
    exact fun log => .done _ _
  rw [committed]
  unfold maxCommitAttempts commitLoop
  refine Stateful.runs_bind (.done _ _) (Stateful.runs_bind (read _)
    (Stateful.runs_bind uploaded (Stateful.runs_bind (.ask (@answers_other _ _
      (.store (.put (sweptRecord s base deltas) (s.lastSeen.map Record.revision)))
      (.ok (.committed (sweptRecord s base deltas).revision)) (by simp)) (.done _ _)) ?_)))
  exact Stateful.runs_bind (applied _) (Stateful.runs_bind (.done _ _) (swept_verified _))

end Swept

section Mixed

attribute [local instance] sampleBlake3 plainDebug

def goKey : RecordKey := ⟨rustKey.ns, rustKey.collection, "go"⟩

def zigKey : RecordKey := ⟨rustKey.ns, rustKey.collection, "zig"⟩

/-- A first batch, into an empty index. -/
def storing : List Delta := [.upsert rustKey [1], .upsert goKey [2]]

/-- A key that the batch itself has inserted is removed, one that was stored is too, one is
written twice, and the last was never there. -/
def mixing : List Delta :=
  [.upsert zigKey [3], .remove zigKey, .remove rustKey, .upsert goKey [4], .upsert goKey [5],
    .remove ⟨rustKey.ns, rustKey.collection, "ada"⟩]

def storedHandle [Serde] [ManifestJson] : RecordVectorIndex :=
  sweptHandle (emptied 1) (newManifest "example" 1 1) storing

def storedManifest : VectorManifest :=
  withShards (newManifest "example" 1 1) (stagedBlobs (emptied 1) storing)

theorem dirtyShards_one {deltas : List Delta} (some : deltas ≠ []) :
    dirtyShards oneShard deltas = [0] := by
  have first : ∀ delta ∈ deltas, shardOf delta.key oneShard = 0 := fun delta _ =>
    UInt16.mod_one
  unfold dirtyShards
  rw [List.map_congr_left first, List.map_const', List.replicate_dedup (by simpa using some)]
  simp

theorem mixed_rebuilds : ∃ (_ : Serde) (_ : ManifestJson),
    HandleState storedHandle ∧
      Program.Runs Answers [] ((commit mixing).run storedHandle)
        (sweptLog storedHandle storedManifest mixing)
        (.ok (sweptHandle storedHandle storedManifest mixing, .ok ())) ∧
      ∃ m : VectorManifest, (sweptRecord storedHandle storedManifest mixing).body = m.toBody ∧
        ∀ id ∈ dirtyShards storedHandle.shards mixing, ∃ hash, m.entries[id]? = some hash ∧
          hash = .of (encodeShard 1 (collectShard
            (sweptHandle storedHandle storedManifest mixing) id)) ∧
          (⟨.putBlob (encodeShard 1 (collectShard
            (sweptHandle storedHandle storedManifest mixing) id)), .ok hash⟩ : Call) ∈
            sweptLog storedHandle storedManifest mixing := by
  obtain ⟨serde, json, roundTrip⟩ := exists_roundTrip
  have opens : Program.Runs Answers [] (openWithShards id rustKey "example" 1 oneShard)
      [⟨.store (.getRaw rustKey), .ok none⟩] (.ok (emptied 1)) :=
    .ask (@answers_other _ [] (.store (.getRaw rustKey)) (.ok none) (by simp)) (.done _ _)
  have wide : ∀ delta ∈ storing, delta.Wide 1 := by simp [storing, Delta.Wide]
  have wide' : ∀ delta ∈ mixing, delta.Wide 1 := by simp [mixing, Delta.Wide]
  have stores : Program.Runs Answers [] ((commit storing).run (emptied 1))
      (sweptLog (emptied 1) (newManifest "example" 1 1) storing) (.ok (storedHandle, .ok ())) :=
    swept_runs (uniform_empty 1) wide rfl rfl (dirtyShards_one (by simp [storing]))
  have state : HandleState storedHandle := .committed (.opened opens) wide stores
  have run := @swept_runs _ _ _ _ storedManifest _ _ state.uniform wide' (roundTrip.vector _) rfl
    (dirtyShards_one (by simp [mixing]))
  have won : Won (sweptLog storedHandle storedManifest mixing)
      (sweptRecord storedHandle storedManifest mixing) :=
    ⟨_, _, List.mem_cons_of_mem _ List.mem_cons_self⟩
  exact ⟨serde, json, state, run, (verification_rebuilds state wide' run won).1⟩

end Mixed

end Gonzalo.Vector
