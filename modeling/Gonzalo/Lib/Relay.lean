import Gonzalo.Lib.Program

/-!
# Servers behind other servers

A client may reach a server only through another one that serves each of its requests by a
program of its own, while others move the world too. If every answer that comes back could
have come from the first server, then so could every run of the client.
-/

set_option autoImplicit false

namespace Gonzalo.Lib

variable {I J : Interface} {World ε α : Type}

/-! ## Requests among other moves -/

/-- The request is served at one moment, and others move before and after it. -/
def Amid (moves : World → World → Prop) (serve : World → (req : I.Req) → I.Ans req → World → Prop)
    (w : World) (req : I.Req) (answer : I.Ans req) (w' : World) : Prop :=
  ∃ w₁ w₂, Relation.ReflTransGen moves w w₁ ∧ serve w₁ req answer w₂ ∧
    Relation.ReflTransGen moves w₂ w'

namespace Amid

variable {moves : World → World → Prop} {serve : World → (req : I.Req) → I.Ans req → World → Prop}
  {w w₁ w' w'' : World} {req : I.Req} {answer answer' : I.Ans req}

theorem of_served (served : serve w req answer w') : Amid moves serve w req answer w' :=
  ⟨w, w', .refl, served, .refl⟩

theorem before (earlier : Relation.ReflTransGen moves w w₁) (amid : Amid moves serve w₁ req answer w') :
    Amid moves serve w req answer w' := by
  obtain ⟨v, v', first, served, last⟩ := amid
  exact ⟨v, v', earlier.trans first, served, last⟩

theorem after (amid : Amid moves serve w req answer w') (later : Relation.ReflTransGen moves w' w'') :
    Amid moves serve w req answer w'' := by
  obtain ⟨v, v', first, served, last⟩ := amid
  exact ⟨v, v', first, served, last.trans later⟩

/-- A request whose serving is itself a move leaves nothing but moves behind. -/
theorem moved (moving : ∀ w req answer w', serve w req answer w' → moves w w')
    (amid : Amid moves serve w req answer w') : Relation.ReflTransGen moves w w' := by
  obtain ⟨v, v', first, served, last⟩ := amid
  exact (first.tail (moving _ _ _ _ served)).trans last

theorem answer_changed (amid : Amid moves serve w req answer w')
    (changed : ∀ w w', serve w req answer w' → serve w req answer' w') :
    Amid moves serve w req answer' w' := by
  obtain ⟨v, v', first, served, last⟩ := amid
  exact ⟨v, v', first, changed _ _ served, last⟩

end Amid

namespace Program

variable {w w' : World} {p : Program I ε α} {result : Except ε α}

/-! ## Runs of a program that another server serves -/

/-- If whatever the larger server answers is, as its part reads it, an answer of the smaller
one, then a run against the one is a run against the other. -/
theorem Runs.of_lift {part : Interface.Part I J}
    {serve : World → (req : I.Req) → I.Ans req → World → Prop}
    {serve' : World → (req : J.Req) → J.Ans req → World → Prop}
    (answers : ∀ w req answer w', serve' w (part.req req) answer w' →
      serve w req (part.ans req answer) w')
    (run : Runs serve' w (p.lift part) w' result) : Runs serve w p w' result := by
  induction p generalizing w with
  | done value =>
    obtain ⟨rfl, rfl⟩ := Runs.done_iff.mp run
    exact .done _ value
  | fail error =>
    obtain ⟨rfl, rfl⟩ := Runs.fail_iff.mp run
    exact .fail _ error
  | ask req next ih =>
    obtain ⟨answer, w₁, served, later⟩ := Runs.ask_iff.mp run
    exact .ask (answers w req answer w₁ served) (ih _ later)

/-- Where every request may also be refused, a run that is cut short is a run that ends. -/
theorem Cut.exists_runs {serve : World → (req : I.Req) → I.Ans req → World → Prop}
    (refuses : ∀ w req, ∃ answer, serve w req answer w) (cut : Cut serve w p w') :
    ∃ result, Runs serve w p w' result := by
  induction cut with
  | here world p =>
    induction p with
    | done value => exact ⟨.ok value, .done world value⟩
    | fail error => exact ⟨.error error, .fail world error⟩
    | ask req next ih =>
      obtain ⟨answer, refused⟩ := refuses world req
      obtain ⟨result, later⟩ := ih answer
      exact ⟨result, .ask refused later⟩
  | ask served later ih =>
    obtain ⟨result, run⟩ := ih
    exact ⟨result, .ask served run⟩

/-- The same for two deterministic servers, along a run whose requests are all `passed` on. -/
theorem exec_lift {part : Interface.Part I J} {serve : World → (req : I.Req) → World × I.Ans req}
    {serve' : World → (req : J.Req) → World × J.Ans req} {passed : World → I.Req → Prop}
    (answers : ∀ w req, passed w req → (serve' w (part.req req)).1 = (serve w req).1 ∧
      part.ans req (serve' w (part.req req)).2 = (serve w req).2)
    (all : Wp ⟨passed, fun w req answer w' => answer = (serve w req).2 ∧ w' = (serve w req).1⟩
      (fun _ _ => True) w p) :
    (p.lift part).exec serve' w = p.exec serve w := by
  induction p generalizing w with
  | done value => rfl
  | fail error => rfl
  | ask req next ih =>
    obtain ⟨guarded, rest⟩ := all
    obtain ⟨world, answer⟩ := answers w req guarded
    change exec serve' (serve' w (part.req req)).1
      ((next (part.ans req (serve' w (part.req req)).2)).lift part) = _
    rw [world, answer, exec_ask]
    exact ih _ (rest _ _ ⟨rfl, rfl⟩)

/-- A run against a deterministic server is one of its runs. -/
theorem runs_exec (serve : World → (req : I.Req) → World × I.Ans req) (w : World)
    (p : Program I ε α) :
    Runs (fun w req answer w' => answer = (serve w req).2 ∧ w' = (serve w req).1) w p
      (p.exec serve w).1 (p.exec serve w).2 := by
  induction p generalizing w with
  | done value => exact .done w value
  | fail error => exact .fail w error
  | ask req next ih => exact .ask ⟨rfl, rfl⟩ (ih _ _)

end Program

/-- A server that is told the time of each request. -/
def ticking (clock : Nat → Int) (serve : Int → World → (req : I.Req) → World × I.Ans req)
    (x : World × Nat) (req : I.Req) : (World × Nat) × I.Ans req :=
  (((serve (clock x.2) x.1 req).1, x.2 + 1), (serve (clock x.2) x.1 req).2)

end Gonzalo.Lib
