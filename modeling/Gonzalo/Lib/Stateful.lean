import Gonzalo.Lib.Program

/-!
# Programs with a local state

A client that keeps a state of its own between its calls, such as an open handle. Its
programs read and change that state along with the requests they issue, and the state they
have reached stays when they fail. `Spec` is the weakest precondition over view and state
together.
-/

set_option autoImplicit false

namespace Gonzalo.Lib

variable {I : Interface} {σ ε α β View : Type}

/-- A program that works on a local state and may fail with an error. -/
def Stateful (I : Interface) (σ ε α : Type) : Type := σ → Program I ε (σ × Except ε α)

namespace Stateful

def run (m : Stateful I σ ε α) (s : σ) : Program I ε (σ × Except ε α) := m s

/-- What follows a part: nothing if it failed. -/
def andThen (f : α → Stateful I σ ε β) : σ × Except ε α → Program I ε (σ × Except ε β)
  | (s, .ok value) => f value s
  | (s, .error e) => .done (s, .error e)

instance : Monad (Stateful I σ ε) where
  pure value := fun s => .done (s, .ok value)
  bind m f := fun s => m s >>= andThen f

/-- The local state. -/
def get : Stateful I σ ε σ := fun s => .done (s, .ok s)

/-- Change the local state. -/
def modify (f : σ → σ) : Stateful I σ ε Unit := fun s => .done (f s, .ok ())

def throw (e : ε) : Stateful I σ ε α := fun s => .done (s, .error e)

/-- Propagate an error, as `?` does. -/
def ofExcept (result : Except ε α) : Stateful I σ ε α := fun s => .done (s, result)

/-- Issue a request and look at its answer. -/
def ask (req : I.Req) : Stateful I σ ε (I.Ans req) := fun s =>
  .ask req fun answer => .done (s, .ok answer)

/-- An end of a program: a value with `post`, or an error with `failed`. -/
def Ends (post : View → σ → α → Prop) (failed : View → σ → Prop) (v : View) :
    Except ε (σ × Except ε α) → Prop
  | .ok (s, .ok value) => post v s value
  | .ok (s, .error _) => failed v s
  | .error _ => False

/-- What holds of every end of the program. -/
def Spec (C : Contract I View) (post : View → σ → α → Prop) (failed : View → σ → Prop) (v : View)
    (s : σ) (m : Stateful I σ ε α) : Prop := Wp C (Ends post failed) v (m s)

namespace Spec

variable {C : Contract I View} {post : View → σ → α → Prop} {failed : View → σ → Prop}
  {v : View} {s : σ}

theorem pure {value : α} (holds : post v s value) :
    Spec C post failed v s (Pure.pure value : Stateful I σ ε α) := holds

theorem throw {e : ε} (holds : failed v s) :
    Spec C post failed v s (Stateful.throw e : Stateful I σ ε α) := holds

theorem ofExcept {result : Except ε α} (ok : ∀ value, result = .ok value → post v s value)
    (error : ∀ e, result = .error e → failed v s) :
    Spec C post failed v s (Stateful.ofExcept result : Stateful I σ ε α) := by
  cases result with
  | ok value => exact ok value rfl
  | error e => exact error e rfl

theorem mono {post' : View → σ → α → Prop} {failed' : View → σ → Prop}
    (weaker : ∀ v s value, post v s value → post' v s value)
    (weaker' : ∀ v s, failed v s → failed' v s) {m : Stateful I σ ε α}
    (holds : Spec C post failed v s m) : Spec C post' failed' v s m := by
  refine Wp.mono ?_ holds
  rintro v' (e | ⟨s', e | value⟩) held
  · exact held
  · exact weaker' v' s' held
  · exact weaker v' s' value held

theorem bind {post' : View → σ → β → Prop} {m : Stateful I σ ε α} {f : α → Stateful I σ ε β}
    (first : Spec C (fun v' s' value => Spec C post' failed v' s' (f value)) failed v s m) :
    Spec C post' failed v s (m >>= f) := by
  refine Wp.bind_iff.mpr (Wp.mono ?_ first)
  rintro v' (e | ⟨s', e | value⟩) held
  · exact held.elim
  · exact held
  · exact held

theorem get {post' : View → σ → β → Prop} {f : σ → Stateful I σ ε β}
    (rest : Spec C post' failed v s (f s)) :
    Spec C post' failed v s (Stateful.get >>= f) := rest

theorem modify {post' : View → σ → β → Prop} {change : σ → σ} {f : Unit → Stateful I σ ε β}
    (rest : Spec C post' failed v (change s) (f ())) :
    Spec C post' failed v s (Stateful.modify change >>= f) := rest

/-- One request, with its answer in hand. -/
theorem ask {post' : View → σ → β → Prop} {req : I.Req} {f : I.Ans req → Stateful I σ ε β}
    (guarded : C.guard v req)
    (rest : ∀ answer v', C.turn v req answer v' → Spec C post' failed v' s (f answer)) :
    Spec C post' failed v s (Stateful.ask req >>= f) := ⟨guarded, rest⟩

/-- Loop rule: what holds of the items still to come and the accumulator. -/
theorem foldlM {τ : Type} {body : α → τ → Stateful I σ ε α}
    (inv : List τ → View → σ → α → Prop)
    (turn : ∀ item rest v s acc, inv (item :: rest) v s acc →
      Spec C (inv rest) failed v s (body acc item))
    {items : List τ} {acc : α} (start : inv items v s acc) :
    Spec C (inv []) failed v s (items.foldlM body acc) := by
  induction items generalizing v s acc with
  | nil => exact start
  | cons item rest ih =>
    rw [List.foldlM_cons]
    exact bind ((turn item rest v s acc start).mono (fun _ _ _ held => ih held) fun _ _ => id)

end Spec

/-- A run of a part that succeeds, and then of what follows it. -/
theorem runs_bind {World : Type} {serve : World → (req : I.Req) → I.Ans req → World → Prop}
    {m : Stateful I σ ε α} {f : α → Stateful I σ ε β} {s s' : σ} {value : α}
    {world world' world'' : World} {result : Except ε (σ × Except ε β)}
    (first : Program.Runs serve world (m s) world' (.ok (s', .ok value)))
    (second : Program.Runs serve world' (f value s') world'' result) :
    Program.Runs serve world ((m >>= f) s) world'' result :=
  Program.Runs.bind first second

end Stateful

end Gonzalo.Lib
