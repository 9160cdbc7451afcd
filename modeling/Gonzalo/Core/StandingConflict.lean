import Gonzalo.Core.Editors

/-!
# A conflict that stands is reported

While a sync runs, the two records it finds at a key of its stores stay what they are, and
no merge settles them. Whatever else happens meanwhile, a report of that sync lists them as
a conflict: every pass lists the key, reads both records and finds them diverged.
-/

set_option autoImplicit false

namespace Gonzalo.Core
open Gonzalo.Lib

section Standing

variable {σ : Type} [Blake3] [Serde]

/-- Two live records that diverge and that no base lets merge. -/
structure Unmergeable (recA recB : Record) : Prop where
  diverged : relate recA recB = .diverged
  liveA : recA.isTombstone = false
  liveB : recB.isTombstone = false
  never : ∀ base, merge recA.kind.mergeClass base recA.body recB.body = .needsResolution

/-- `recA` is what every read of the key in `a` finds, and `recB` in `b`; nothing else is
known. -/
def standing (a b : σ) (key : RecordKey) (recA recB : Record) :
    Contract (syncInterface σ) Unit where
  guard _ _ := True
  turn _ req answer _ :=
    match req, answer with
    | .store name (.getRaw key'), .ok found =>
      (name = a → key' = key → found = some recA) ∧ (name = b → key' = key → found = some recB)
    | .store name (.listRaw keys), .ok listed => name = a → keys.matches key = true → key ∈ listed
    | _, _ => True

variable {a b : σ} {key : RecordKey} {recA recB : Record} {ancestry : Bool} {s : PassState}

/-- The report so far lists the conflict. -/
def SyncReport.Lists (self : SyncReport) (key : RecordKey) (recA recB : Record) : Prop :=
  ⟨key, recA, recB⟩ ∈ self.conflicts

omit [Blake3] [Serde] in
theorem lists_settle {key' : RecordKey} {landed : Bool} {note : SyncReport → SyncReport}
    (keeps : ∀ r, (note r).conflicts = r.conflicts) (listed : s.report.Lists key recA recB) :
    (s.settle key' landed note).report.Lists key recA recB := by
  unfold PassState.settle
  split
  · simpa [SyncReport.Lists, keeps] using listed
  · exact listed

omit [Blake3] [Serde] in
theorem lists_conflict {key' : RecordKey} {x y : Record} (listed : s.report.Lists key recA recB) :
    (s.conflict key' x y).report.Lists key recA recB :=
  List.mem_append_left _ listed

/-- If the program ends with a value, that value satisfies `holds`. -/
abbrev EndsIn {α : Type} (holds : α → Prop) : Unit → Except CoreError α → Prop :=
  fun _ result => ∀ value, result = .ok value → holds value

omit [Blake3] [Serde] in
theorem endsIn_error {α : Type} {holds : α → Prop} (e : CoreError) :
    EndsIn holds () (.error e) := fun _ is => by cases is

omit [Blake3] [Serde] in
theorem endsIn_ok {α : Type} {holds : α → Prop} {value : α} (held : holds value) :
    EndsIn holds () (.ok value) := fun _ is => Except.ok.inj is ▸ held

omit [Blake3] [Serde] in
/-- Nothing is asked of the run. -/
theorem wp_any {α : Type} {holds : α → Prop} (p : SyncProgram σ α) (ends : ∀ value, holds value) :
    Wp (standing a b key recA recB) (EndsIn holds) () p :=
  Wp.of_free (fun _ _ => trivial) (fun _ _ value _ => ends value) p

omit [Blake3] [Serde] in
/-- Whatever ran first, and whatever it answered. -/
theorem wp_after {α β : Type} {holds : β → Prop} {f : α → SyncProgram σ β} (p : SyncProgram σ α)
    (then_ : ∀ value, Wp (standing a b key recA recB) (EndsIn holds) () (f value)) :
    Wp (standing a b key recA recB) (EndsIn holds) () (p >>= f) := by
  have anything : Wp (standing a b key recA recB) (EndsIn fun _ : α => True) () p :=
    wp_any p fun _ => trivial
  exact anything.bind (fun _ value _ => then_ value) fun _ e _ => endsIn_error e

omit [Blake3] [Serde] in
theorem wp_settle (p : SyncProgram σ Bool) {key' : RecordKey} {note : SyncReport → SyncReport}
    (keeps : ∀ r, (note r).conflicts = r.conflicts) (listed : s.report.Lists key recA recB) :
    Wp (standing a b key recA recB) (EndsIn fun s' => s'.report.Lists key recA recB) ()
      (p >>= fun landed => pure (s.settle key' landed note)) :=
  wp_after p fun _ => endsIn_ok (lists_settle keeps listed)

/-- No key takes a conflict out of the report. -/
theorem wp_syncKey_lists {key' : RecordKey} (listed : s.report.Lists key recA recB) :
    Wp (standing a b key recA recB) (EndsIn fun s' => s'.report.Lists key recA recB) ()
      (syncKey a b ancestry s key') := by
  refine wp_after _ fun ra => wp_after _ fun rb => ?_
  match ra, rb with
  | some _, none | none, some _ => exact wp_settle _ (fun _ => rfl) listed
  | none, none => exact endsIn_ok listed
  | some x, some y =>
    simp only
    cases relate x y with
    | inSync => exact endsIn_ok listed
    | aAhead | bAhead => exact wp_settle _ (fun _ => rfl) listed
    | diverged =>
      simp only [reconcileDiverged]
      cases x.isTombstone <;> cases y.isTombstone
      case true.true => exact wp_settle _ (fun _ => rfl) listed
      case true.false | false.true => exact endsIn_ok (lists_conflict listed)
      case false.false =>
        refine wp_after _ fun base => ?_
        cases merge x.kind.mergeClass base x.body y.body with
        | merged body => exact wp_settle _ (fun _ => rfl) listed
        | needsResolution => exact endsIn_ok (lists_conflict listed)

omit [Blake3] [Serde] in
/-- The next read of the key finds what stands there. -/
theorem wp_read {name : σ} {rec : Record} {holds : PassState → Prop}
    {f : Option Record → SyncProgram σ PassState}
    (stands : ∀ found, (name = a → key = key → found = some recA) ∧
      (name = b → key = key → found = some recB) → found = some rec)
    (then_ : Wp (standing a b key recA recB) (EndsIn holds) () (f (some rec))) :
    Wp (standing a b key recA recB) (EndsIn holds) () (getRaw name key >>= f) := by
  refine ⟨trivial, fun answer _ turned => ?_⟩
  cases answer with
  | ok found =>
    rw [stands found turned]
    exact then_
  | error e => exact endsIn_error e

/-- The pass comes to the key. -/
theorem wp_syncKey_at (unmergeable : Unmergeable recA recB) :
    Wp (standing a b key recA recB) (EndsIn fun s' => s'.report.Lists key recA recB) ()
      (syncKey a b ancestry s key) := by
  refine wp_read (fun found stands => stands.1 rfl rfl) ?_
  refine wp_read (fun found stands => stands.2 rfl rfl) ?_
  simp only [unmergeable.diverged, reconcileDiverged, unmergeable.liveA, unmergeable.liveB]
  refine wp_after _ fun base => ?_
  rw [unmergeable.never]
  exact endsIn_ok (List.mem_append_right _ (List.mem_singleton_self _))

/-- Every pass lists the key, so it comes to it. -/
theorem wp_syncPass_lists (unmergeable : Unmergeable recA recB) :
    Wp (standing a b key recA recB) (EndsIn fun s => s.report.Lists key recA recB) ()
      (syncPass a b ancestry) := by
  refine ⟨trivial, fun answer _ turned => ?_⟩
  cases answer with
  | error e => exact endsIn_error e
  | ok keysA =>
    refine wp_after (listRaw b) fun keysB => ?_
    refine Wp.foldlM
      (fun rest _ (s : PassState) => key ∈ rest ∨ s.report.Lists key recA recB) ?_ ?_ ?_
    · rintro key' rest - s pending
      have turn : Wp (standing a b key recA recB)
          (EndsIn fun s' => key ∈ rest ∨ s'.report.Lists key recA recB) ()
          (syncKey a b ancestry s key') := by
        by_cases here : key' = key
        · subst here
          exact (wp_syncKey_at unmergeable).mono fun _ _ held s' is => Or.inr (held s' is)
        · rcases pending with member | listed
          · exact wp_any _ fun _ => Or.inl (List.mem_of_ne_of_mem (Ne.symm here) member)
          · exact (wp_syncKey_lists listed).mono fun _ _ held s' is => Or.inr (held s' is)
      refine turn.mono fun _ result held => ?_
      cases result with
      | error e => exact endsIn_error e
      | ok s' => exact held s' rfl
    · rintro - s pending
      exact endsIn_ok (pending.resolve_left List.not_mem_nil)
    · exact Or.inl (mem_ascending.mpr (List.mem_append_left _ (turned rfl rfl)))

/-- Every report of the sync lists the conflict. -/
theorem wp_sync_lists (unmergeable : Unmergeable recA recB) :
    Wp (standing a b key recA recB) (EndsIn fun r => r.Lists key recA recB) ()
      (syncWithAncestry a b ancestry) := by
  -- a turn of the loop discards the report before it, so only the last pass counts
  have loop : ∀ passes report, passes ≠ 0 ∨ report.Lists key recA recB →
      Wp (standing a b key recA recB) (EndsIn fun r => r.Lists key recA recB) ()
        (syncLoop a b ancestry passes report) := by
    intro passes
    induction passes with
    | zero => exact fun report listed => endsIn_ok (listed.resolve_left (absurd rfl))
    | succ passes ih =>
      intro report _
      refine (wp_syncPass_lists unmergeable).bind (fun _ s held => ?_) fun _ e _ => endsIn_error e
      have listed := held s rfl
      split
      · exact endsIn_ok listed
      · exact ih _ (Or.inr listed)
  exact loop _ _ (Or.inl (by decide))

end Standing

section Runs

variable {σ ι ρ τ : Type} [DecidableEq σ] [DecidableEq ι] [Blake3] [Serde]
  {a b : σ} {key : RecordKey} {recA recB : Record}

omit [Serde] in
/-- A fleet in which the two records stand answers as they do. -/
theorem served_standing {w w' : Fleet σ ι} {i : ι} {req : SyncReq σ} {answer : req.Ans}
    (atA : w.getRaw a key = some recA) (atB : w.getRaw b key = some recB)
    (served : Fleet.Served w i req answer w') :
    (standing a b key recA recB).turn () req answer () := by
  cases served with
  | read name key' =>
    refine ⟨?_, ?_⟩
    · rintro rfl rfl
      exact atA
    · rintro rfl rfl
      exact atB
  | call name nowMs req other =>
    cases req with
    | getRaw key' => exact absurd rfl (other key')
    | listRaw keys =>
      rintro rfl within
      exact MemStore.mem_listRaw.mpr ⟨⟨recA, atA⟩, within⟩
    | _ => trivial
  | failed name req e | lost name nowMs req e => cases req <;> trivial
  | blob hash answer => trivial

/-- If the two records stand in every pool that a run can reach from the start of client
`i`'s sync, a report of that client lists them. -/
theorem Edited.reported {peers : ι → σ × σ} {edit : Edit σ ι ρ τ} [DecidableEq ρ]
    {admitted : Edited σ ι ρ τ → ι → SyncReq σ → Prop} {i : ι} {ancestry : Bool}
    {c c' : EditedPool σ ι ρ τ} {report : SyncReport} (unmergeable : Unmergeable recA recB)
    (stands : ∀ c'', Pool.Reaches (rules peers key edit admitted)
      (c.setClient i (syncWithAncestry (peers i).1 (peers i).2 ancestry)) c'' →
      c''.world.getRaw (peers i).1 key = some recA ∧ c''.world.getRaw (peers i).2 key = some recB)
    (run : Pool.Reaches (rules peers key edit admitted)
      (c.setClient i (syncWithAncestry (peers i).1 (peers i).2 ancestry)) c')
    (finished : c'.clients i = some (.done report)) : report.Lists key recA recB := by
  let C := standing (peers i).1 (peers i).2 key recA recB
  let post : ι → Unit → Except CoreError SyncReport → Prop := fun j _ result =>
    j = i → EndsIn (fun r => r.Lists key recA recB) () result
  have anyClient : ∀ j ancestry', Wp C (post j) ()
      (syncWithAncestry (peers j).1 (peers j).2 ancestry') := by
    intro j ancestry'
    by_cases same : j = i
    · subst same
      exact (wp_sync_lists unmergeable).mono fun _ _ held _ => held
    · exact Wp.of_free (fun _ _ => trivial) (fun _ _ is => absurd is same) _
  have logic : Pool.Logic (Pool.within (rules peers key edit admitted) fun c =>
        c.world.getRaw (peers i).1 key = some recA ∧ c.world.getRaw (peers i).2 key = some recB)
      C post fun _ _ => True := by
    refine ⟨?_, ?_, fun _ _ _ _ _ => trivial⟩
    · rintro c views j _ - ⟨ancestry', rfl⟩
      exact ⟨(), anyClient j ancestry', trivial⟩
    · rintro c views j req next answer world' - - ⟨-, atA, atB⟩ - ⟨fleet, served, rfl⟩
      exact ⟨(), served_standing atA atB served, fun _ => trivial⟩
  have started : Pool.Covered C post
      (c.setClient i (syncWithAncestry (peers i).1 (peers i).2 ancestry)) fun _ => () := by
    intro j p at_p
    by_cases same : j = i
    · subst same
      rw [Pool.setClient_self] at at_p
      cases at_p
      exact anyClient j ancestry
    · exact Wp.of_free (fun _ _ => trivial) (fun _ _ is => absurd is same) _
  obtain ⟨views, -, covered⟩ := Pool.wp_invariant logic (Pool.reaches_within stands run)
    ⟨fun _ => (), trivial, started⟩
  exact covered i _ finished rfl report rfl

end Runs

end Gonzalo.Core
