import Gonzalo.Lib.Program

/-!
# Interleaved clients

Any number of clients run programs against one server. A step of the system
serves the next request of one client, starts a client on a fresh program (a
client that was in the middle of another one is abandoned there, as after a
crash), or lets the world change by itself. Nothing is assumed about the order.

`Pool.wp_invariant` is the proof rule: a relation between the world, the clients
and what each client knows holds in every reachable state if each kind of step
keeps it, and then every client is always at a point its contract covers.
-/

set_option autoImplicit false

namespace Gonzalo.Lib

variable {I : Interface} {World Client View ε α : Type}

/-- The shared world and the program each client still has to run. -/
structure Pool (I : Interface) (World Client ε α : Type) where
  world : World
  clients : Client → Option (Program I ε α)

/-- Who may do what: `serve` answers a client's request, `starts` are the programs
a client may be started on, `ambient` are the changes of the world nobody in the
pool makes, and `admits` restricts when a request is served at all. -/
structure Rules (I : Interface) (World Client ε α : Type) where
  serve : World → Client → (req : I.Req) → I.Ans req → World → Prop
  starts : Client → Program I ε α → Prop
  ambient : World → World → Prop
  admits : Pool I World Client ε α → Client → I.Req → Prop

namespace Pool

variable [DecidableEq Client]

/-- The pool with client `i` at program `p`. -/
def setClient (c : Pool I World Client ε α) (i : Client) (p : Program I ε α) :
    Pool I World Client ε α :=
  { c with clients := Function.update c.clients i (some p) }

@[simp] theorem setClient_world (c : Pool I World Client ε α) (i : Client) (p : Program I ε α) :
    (c.setClient i p).world = c.world := rfl

@[simp] theorem setClient_self (c : Pool I World Client ε α) (i : Client) (p : Program I ε α) :
    (c.setClient i p).clients i = some p := by simp [setClient]

theorem setClient_ne (c : Pool I World Client ε α) {i j : Client} (p : Program I ε α)
    (other : j ≠ i) : (c.setClient i p).clients j = c.clients j := by
  simp [setClient, other]

inductive Step (rules : Rules I World Client ε α) :
    Pool I World Client ε α → Pool I World Client ε α → Prop where
  | start {c : Pool I World Client ε α} (i : Client) (p : Program I ε α)
      (allowed : rules.starts i p) : Step rules c (c.setClient i p)
  | serve {c : Pool I World Client ε α} (i : Client) (req : I.Req)
      (next : I.Ans req → Program I ε α) (answer : I.Ans req) (world' : World)
      (at_req : c.clients i = some (.ask req next)) (admitted : rules.admits c i req)
      (served : rules.serve c.world i req answer world') :
      Step rules c ({ c with world := world' }.setClient i (next answer))
  | ambient {c : Pool I World Client ε α} (world' : World)
      (moved : rules.ambient c.world world') : Step rules c { c with world := world' }

/-- The pools a run can reach. -/
abbrev Reaches (rules : Rules I World Client ε α) :
    Pool I World Client ε α → Pool I World Client ε α → Prop :=
  Relation.ReflTransGen (Step rules)

/-- Serving one client `n` requests in a row, with the answers `serve` gives, is a run, if each
of them is admitted when its turn comes. -/
theorem reaches_steps_admitted {rules : Rules I World Client ε α} {i : Client}
    {serve : World → (req : I.Req) → World × I.Ans req}
    (served : ∀ world req, rules.serve world i req (serve world req).2 (serve world req).1)
    (n : Nat) {c : Pool I World Client ε α} {p : Program I ε α} (at_p : c.clients i = some p)
    (admitted : ∀ k < n, ∀ req, (p.steps serve k c.world).2.nextReq = some req →
      rules.admits ({ c with world := (p.steps serve k c.world).1 }.setClient i
        (p.steps serve k c.world).2) i req) :
    Reaches rules c ({ c with world := (p.steps serve n c.world).1 }.setClient i
      (p.steps serve n c.world).2) := by
  have unchanged : c.setClient i p = c := by
    simp [setClient, ← at_p]
  induction n generalizing c p with
  | zero =>
    simp only [Program.steps]
    rw [unchanged]
  | succ n ih =>
    cases p with
    | done value =>
      simp only [Program.steps]
      rw [unchanged]
    | fail error =>
      simp only [Program.steps]
      rw [unchanged]
    | ask req next =>
      have now : rules.admits c i req := by
        have first := admitted 0 (Nat.zero_lt_succ n) req rfl
        simp only [Program.steps] at first
        rwa [unchanged] at first
      have one := Step.serve i req next _ _ at_p now (served c.world req)
      have rest := @ih ({ c with world := (serve c.world req).1 }.setClient i
        (next (serve c.world req).2)) _ (setClient_self _ i _) (fun k below req' at_req => by
          simpa [setClient, Program.steps] using
            admitted (k + 1) (Nat.succ_lt_succ below) req' at_req) (by simp [setClient])
      refine (Relation.ReflTransGen.single one).trans ?_
      simpa [setClient, Program.steps] using rest

/-- Serving one client `n` requests in a row, all of which are admitted. -/
theorem reaches_steps {rules : Rules I World Client ε α} {i : Client}
    {serve : World → (req : I.Req) → World × I.Ans req}
    (served : ∀ world req, rules.serve world i req (serve world req).2 (serve world req).1)
    (admitted : ∀ c req, rules.admits c i req) (n : Nat) {c : Pool I World Client ε α}
    {p : Program I ε α} (at_p : c.clients i = some p) :
    Reaches rules c ({ c with world := (p.steps serve n c.world).1 }.setClient i
      (p.steps serve n c.world).2) :=
  reaches_steps_admitted served n at_p fun _ _ req _ => admitted _ req

/-- Serving one client to the end of its program, with the answers `serve` gives, is a run. -/
theorem reaches_exec {rules : Rules I World Client ε α} {i : Client}
    {serve : World → (req : I.Req) → World × I.Ans req}
    (served : ∀ world req, rules.serve world i req (serve world req).2 (serve world req).1)
    (admitted : ∀ c req, rules.admits c i req) {c : Pool I World Client ε α}
    {p : Program I ε α} (at_p : c.clients i = some p) :
    Reaches rules c ({ c with world := (p.exec serve c.world).1 }.setClient i
      (.ofExcept (p.exec serve c.world).2)) := by
  obtain ⟨n, ended⟩ := @Program.exists_steps_eq_exec _ _ _ _ serve c.world p
  have run := reaches_steps served admitted n at_p
  rwa [ended] at run

/-- Every client is at a program its contract covers, at the view it has. -/
def Covered (C : Contract I View) (post : Client → View → Except ε α → Prop)
    (c : Pool I World Client ε α) (views : Client → View) : Prop :=
  ∀ i p, c.clients i = some p → Wp C (post i) (views i) p

/-- The same rules, with requests served only in the pools that `allowed` holds of. -/
def within (rules : Rules I World Client ε α) (allowed : Pool I World Client ε α → Prop) :
    Rules I World Client ε α :=
  { rules with admits := fun c i req => rules.admits c i req ∧ allowed c }

/-- A run that never leaves what is allowed is a run within it. -/
theorem reaches_within {rules : Rules I World Client ε α} {allowed : Pool I World Client ε α → Prop}
    {c c' : Pool I World Client ε α} (always : ∀ c'', Reaches rules c c'' → allowed c'')
    (run : Reaches rules c c') : Reaches (within rules allowed) c c' := by
  induction run with
  | refl => exact .refl
  | tail run step ih =>
    refine ih.tail ?_
    cases step with
    | start i p start => exact .start i p start
    | serve i req next answer world' at_req admitted served =>
      exact .serve i req next answer world' at_req ⟨admitted, always _ run⟩ served
    | ambient world' moved => exact .ambient world' moved

/-- What a proof about a pool supplies: `good` relates the world, the clients and
their views, and each kind of step keeps it. -/
structure Logic (rules : Rules I World Client ε α) (C : Contract I View)
    (post : Client → View → Except ε α → Prop)
    (good : Pool I World Client ε α → (Client → View) → Prop) : Prop where
  start : ∀ c views i p, good c views → rules.starts i p →
    ∃ view, Wp C (post i) view p ∧ good (c.setClient i p) (Function.update views i view)
  serve : ∀ (c : Pool I World Client ε α) (views : Client → View) (i : Client) (req : I.Req)
      (next : I.Ans req → Program I ε α) (answer : I.Ans req) (world' : World),
    good c views → c.clients i = some (.ask req next) → rules.admits c i req →
    C.guard (views i) req → rules.serve c.world i req answer world' →
    ∃ view, C.turn (views i) req answer view ∧
      (Wp C (post i) view (next answer) →
        good ({ c with world := world' }.setClient i (next answer)) (Function.update views i view))
  ambient : ∀ c views world', good c views → rules.ambient c.world world' →
    good { c with world := world' } views

omit [DecidableEq Client] in
private theorem covered_world {C : Contract I View} {post : Client → View → Except ε α → Prop}
    {c : Pool I World Client ε α} {views : Client → View} (covered : Covered C post c views)
    (world' : World) : Covered C post { c with world := world' } views := covered

private theorem covered_setClient {C : Contract I View}
    {post : Client → View → Except ε α → Prop} {c : Pool I World Client ε α}
    {views : Client → View} {i : Client} {p : Program I ε α} {view : View}
    (covered : Covered C post c views) (holds : Wp C (post i) view p) :
    Covered C post (c.setClient i p) (Function.update views i view) := by
  intro j q at_q
  by_cases same : j = i
  · subst same
    rw [setClient_self] at at_q
    cases at_q
    simpa using holds
  · rw [setClient_ne c p same] at at_q
    simpa [same] using covered j q at_q

/-- One step keeps the relation and leaves every client covered. -/
theorem step_invariant {rules : Rules I World Client ε α} {C : Contract I View}
    {post : Client → View → Except ε α → Prop}
    {good : Pool I World Client ε α → (Client → View) → Prop} (logic : Logic rules C post good)
    {c c' : Pool I World Client ε α} (step : Step rules c c')
    (held : ∃ views, good c views ∧ Covered C post c views) :
    ∃ views, good c' views ∧ Covered C post c' views := by
  obtain ⟨views, related, covered⟩ := held
  cases step with
  | start i p allowed =>
    obtain ⟨view, holds, related'⟩ := logic.start c views i p related allowed
    exact ⟨_, related', covered_setClient covered holds⟩
  | serve i req next answer world' at_req admitted served =>
    have holds := covered i _ at_req
    obtain ⟨view, turned, related'⟩ := logic.serve c views i req next answer world' related
      at_req admitted holds.1 served
    have holds' := holds.2 answer view turned
    exact ⟨_, related' holds', covered_setClient (covered_world covered world') holds'⟩
  | ambient world' moved =>
    exact ⟨views, logic.ambient c views world' related moved, covered_world covered world'⟩

/-- The invariant rule over whole runs. -/
theorem wp_invariant {rules : Rules I World Client ε α} {C : Contract I View}
    {post : Client → View → Except ε α → Prop}
    {good : Pool I World Client ε α → (Client → View) → Prop} (logic : Logic rules C post good)
    {c c' : Pool I World Client ε α} (run : Reaches rules c c')
    (held : ∃ views, good c views ∧ Covered C post c views) :
    ∃ views, good c' views ∧ Covered C post c' views := by
  induction run with
  | refl => exact held
  | tail _ step ih => exact step_invariant logic step ih

end Pool

end Gonzalo.Lib
