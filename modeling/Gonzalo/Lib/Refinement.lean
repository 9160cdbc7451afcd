import Gonzalo.Lib.Program

/-!
# Refinement of a server

A specification of a server says which answer a request may get in an abstract
state and which states may follow. A deterministic server refines it through an
abstraction function if each answer it gives, and the state it goes to, are allowed;
then every history of the server is one the specification allows.
-/

set_option autoImplicit false

namespace Gonzalo.Lib

variable {I : Interface} {World Abstract : Type}

/-- Requests and their answers, in order. -/
abbrev History (I : Interface) : Type := List ((req : I.Req) × I.Ans req)

/-- The histories a specification allows between two of its states. -/
inductive Allows (spec : Abstract → (req : I.Req) → I.Ans req → Abstract → Prop) :
    Abstract → History I → Abstract → Prop
  | nil (m : Abstract) : Allows spec m [] m
  | cons {m m' m'' : Abstract} {req : I.Req} {answer : I.Ans req} {rest : History I}
      (step : spec m req answer m') (later : Allows spec m' rest m'') :
      Allows spec m (⟨req, answer⟩ :: rest) m''

/-- What a server answers to a list of requests, and where it ends. -/
def history (serve : World → (req : I.Req) → World × I.Ans req) :
    World → List I.Req → History I × World
  | world, [] => ([], world)
  | world, req :: rest =>
    let later := history serve (serve world req).1 rest
    (⟨req, (serve world req).2⟩ :: later.1, later.2)

/-- A server whose every step the specification allows refines it over whole histories. -/
theorem allows_history {serve : World → (req : I.Req) → World × I.Ans req}
    {spec : Abstract → (req : I.Req) → I.Ans req → Abstract → Prop} {abs : World → Abstract}
    (sim : ∀ world req, spec (abs world) req (serve world req).2 (abs (serve world req).1))
    (world : World) (reqs : List I.Req) :
    Allows spec (abs world) (history serve world reqs).1 (abs (history serve world reqs).2) := by
  induction reqs generalizing world with
  | nil => exact .nil _
  | cons req rest ih => exact .cons (sim world req) (ih _)

/-- Forward simulation of labelled steps: if each step of a system from related states is
matched by what `follows` allows the abstract system under the same label, then every run
of the system comes with a run of the abstract one, label by label. -/
theorem simulates {Act Concrete : Type} {step : Act → Concrete → Concrete → Prop}
    {follows : Act → Abstract → Abstract → Prop} {related : Concrete → Abstract → Prop}
    (sim : ∀ act c c' a, related c a → step act c c' → ∃ a', follows act a a' ∧ related c' a')
    {c₀ c : Concrete} {a₀ : Abstract} (start : related c₀ a₀)
    (run : Relation.ReflTransGen (fun x y => ∃ act, step act x y) c₀ c) :
    ∃ a, Relation.ReflTransGen
        (fun x y : Concrete × Abstract => ∃ act, step act x.1 y.1 ∧ follows act x.2 y.2)
        (c₀, a₀) (c, a) ∧ related c a := by
  induction run with
  | refl => exact ⟨a₀, .refl, start⟩
  | tail _ one ih =>
    obtain ⟨act, stepped⟩ := one
    obtain ⟨a, run, holds⟩ := ih
    obtain ⟨a', followed, holds'⟩ := sim act _ _ a holds stepped
    exact ⟨a', run.tail ⟨act, stepped, followed⟩, holds'⟩

end Gonzalo.Lib
