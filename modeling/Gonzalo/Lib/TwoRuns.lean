import Gonzalo.Lib.Program

/-!
# Two runs of one server

Two programs, each run alone against its own state of one deterministic server. They are
alike if related states lead them to related states and related results, so what a relation
hides of the states is hidden of the results as well.
-/

set_option autoImplicit false

namespace Gonzalo.Lib

variable {I : Interface} {World α α' β β' ε ε' φ φ' σ σ' τ : Type}

/-- Both succeed with values that `V` relates, or both fail with errors that `E` does. -/
def BothEnd (V : α → α' → Prop) (E : ε → ε' → Prop) : Except ε α → Except ε' α' → Prop
  | .ok value, .ok value' => V value value'
  | .error e, .error e' => E e e'
  | _, _ => False

/-- Runs from states that `R` relates end in such states, with related results. -/
def Alike (serve : World → (req : I.Req) → World × I.Ans req) (R : World → World → Prop)
    (V : α → α' → Prop) (E : ε → ε' → Prop) (p : Program I ε α) (q : Program I ε' α') : Prop :=
  ∀ w w', R w w' → R (p.exec serve w).1 (q.exec serve w').1 ∧
    BothEnd V E (p.exec serve w).2 (q.exec serve w').2

namespace Alike

variable {serve : World → (req : I.Req) → World × I.Ans req} {R : World → World → Prop}
  {V : α → α' → Prop} {U : β → β' → Prop} {E : ε → ε' → Prop} {F : φ → φ' → Prop}

theorem done {value : α} {value' : α'} (related : V value value') :
    Alike serve R V E (.done value : Program I ε α) (.done value' : Program I ε' α') :=
  fun _ _ states => ⟨states, related⟩

theorem fail {e : ε} {e' : ε'} (related : E e e') :
    Alike serve R V E (.fail e : Program I ε α) (.fail e' : Program I ε' α') :=
  fun _ _ states => ⟨states, related⟩

theorem ofExcept {result : Except ε α} {result' : Except ε' α'}
    (related : BothEnd V E result result') :
    Alike serve R V E (.ofExcept result : Program I ε α) (.ofExcept result' : Program I ε' α') := by
  intro w w' states
  cases result with
  | ok value =>
    cases result' with
    | ok value' => exact ⟨states, related⟩
    | error e' => exact related.elim
  | error e =>
    cases result' with
    | ok value' => exact related.elim
    | error e' => exact ⟨states, related⟩

theorem ask {req req' : I.Req} {A : I.Ans req → I.Ans req' → Prop}
    {next : I.Ans req → Program I ε α} {next' : I.Ans req' → Program I ε' α'}
    (served : ∀ w w', R w w' → R (serve w req).1 (serve w' req').1 ∧
      A (serve w req).2 (serve w' req').2)
    (later : ∀ answer answer', A answer answer' → Alike serve R V E (next answer) (next' answer')) :
    Alike serve R V E (.ask req next) (.ask req' next') := by
  intro w w' states
  obtain ⟨states', answers⟩ := served w w' states
  exact later _ _ answers _ _ states'

theorem bind {p : Program I ε α} {q : Program I ε' α'} {f : α → Program I ε β}
    {g : α' → Program I ε' β'} (first : Alike serve R V E p q)
    (second : ∀ value value', V value value' → Alike serve R U E (f value) (g value')) :
    Alike serve R U E (p >>= f) (q >>= g) := by
  intro w w' states
  have ends := first w w' states
  rw [Program.exec_bind, Program.exec_bind]
  revert ends
  generalize p.exec serve w = ended, q.exec serve w' = ended'
  obtain ⟨w₁, result⟩ := ended
  obtain ⟨w₁', result'⟩ := ended'
  rintro ⟨states', results⟩
  cases result with
  | ok value =>
    cases result' with
    | ok value' => exact second value value' results w₁ w₁' states'
    | error e' => exact results.elim
  | error e =>
    cases result' with
    | ok value' => exact results.elim
    | error e' => exact ⟨states', results⟩

theorem mono {V' : α → α' → Prop} {E' : ε → ε' → Prop} {p : Program I ε α} {q : Program I ε' α'}
    (holds : Alike serve R V E p q) (values : ∀ value value', V value value' → V' value value')
    (errors : ∀ e e', E e e' → E' e e') : Alike serve R V' E' p q := by
  intro w w' states
  obtain ⟨states', results⟩ := holds w w' states
  refine ⟨states', ?_⟩
  revert results
  cases (p.exec serve w).2 <;> cases (q.exec serve w').2
  · exact errors _ _
  · exact id
  · exact id
  · exact values _ _

theorem mapError {p : Program I ε α} {q : Program I ε' α'} {rename : ε → φ} {rename' : ε' → φ'}
    (holds : Alike serve R V E p q) (errors : ∀ e e', E e e' → F (rename e) (rename' e')) :
    Alike serve R V F (p.mapError rename) (q.mapError rename') := by
  intro w w' states
  obtain ⟨states', results⟩ := holds w w' states
  rw [Program.exec_mapError, Program.exec_mapError]
  refine ⟨states', ?_⟩
  revert results
  cases (p.exec serve w).2 <;> cases (q.exec serve w').2
  · exact errors _ _
  · exact id
  · exact id
  · exact id

theorem attempt {p : Program I ε α} {q : Program I ε' α'} (holds : Alike serve R V E p q) :
    Alike serve R (BothEnd V E) F (p.attempt : Program I φ (Except ε α))
      (q.attempt : Program I φ' (Except ε' α')) := by
  intro w w' states
  rw [Program.exec_attempt, Program.exec_attempt]
  exact holds w w' states

/-- A loop over the same items keeps the accumulators related. -/
theorem foldlM {A : σ → σ' → Prop} {body : σ → τ → Program I ε σ} {body' : σ' → τ → Program I ε' σ'}
    (turn : ∀ acc acc' item, A acc acc' → Alike serve R A E (body acc item) (body' acc' item))
    {items : List τ} {acc : σ} {acc' : σ'} (start : A acc acc') :
    Alike serve R A E (items.foldlM body acc) (items.foldlM body' acc') := by
  induction items generalizing acc acc' with
  | nil => exact done start
  | cons item rest ih =>
    rw [List.foldlM_cons, List.foldlM_cons]
    exact bind (turn acc acc' item start) fun _ _ later => ih later

end Alike

end Gonzalo.Lib
