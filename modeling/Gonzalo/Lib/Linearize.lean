import Gonzalo.Lib.Refinement

/-!
# Calls with an instant

Clients make calls, and each call is served by a program of finer requests. `CallPool` is
where such clients stand, `AtomicPool` the same clients in front of a server that answers a
call all at once. A proof says what a call under way knows, and that each of its requests
either moves nothing of the abstract state or is the one instant of the call. Then every run
comes with an atomic run, step by step, so the instant of a call lies between its start and
its end.
-/

set_option autoImplicit false

namespace Gonzalo.Lib

variable {I J : Interface} {World Client Note State View : Type}

/-! ## The clients -/

/-- A call under way: what is left of its program, and a note of what it has asked for. -/
structure Ongoing (I J : Interface) (Note : Type) where
  call : I.Req
  program : Program J Empty (I.Ans call)
  note : Note

/-- Whether the call still has a request to make. -/
def Ongoing.InProgress (o : Ongoing I J Note) : Prop := o.program.nextReq ≠ none

/-- The world and the latest call of each client. -/
structure CallPool (I J : Interface) (World Client Note : Type) where
  world : World
  ongoing : Client → Option (Ongoing I J Note)

/-- Who does what in a step. -/
inductive CallAct (I : Interface) (Client : Type) where
  | start (i : Client) (call : I.Req)
  | serve (i : Client)
  | stop (i : Client)

/-- How calls are served: which ones a client may start and as which program, what the world
answers, which answers have to wait, and what a call notes of one. -/
structure CallRules (I J : Interface) (World Client Note : Type) where
  starts : CallPool I J World Client Note → Client → Ongoing I J Note → Prop
  serve : World → (req : J.Req) → J.Ans req → World → Prop
  admits : CallPool I J World Client Note → Client → (req : J.Req) → J.Ans req → Prop
  noted : Note → (req : J.Req) → J.Ans req → Note

/-- A program that catches its error ends with it. -/
theorem Program.Runs.attempt {I : Interface} {ε ε' α : Type}
    {serve : World → (req : I.Req) → I.Ans req → World → Prop} {w w' : World}
    {p : Program I ε α} {result : Except ε α} (run : Program.Runs serve w p w' result) :
    Program.Runs serve w (p.attempt : Program I ε' (Except ε α)) w' (.ok result) := by
  induction run with
  | done w value => exact .done w _
  | fail w error => exact .done w _
  | ask served later ih => exact .ask served ih

namespace CallPool

variable [DecidableEq Client]

/-- The pool with another call of client `i`, or with none. -/
def setCall (c : CallPool I J World Client Note) (i : Client) (o : Option (Ongoing I J Note)) :
    CallPool I J World Client Note :=
  { c with ongoing := Function.update c.ongoing i o }

@[simp] theorem setCall_self (c : CallPool I J World Client Note) (i : Client)
    (o : Option (Ongoing I J Note)) : (c.setCall i o).ongoing i = o := by simp [setCall]

theorem setCall_ne (c : CallPool I J World Client Note) {i j : Client}
    (o : Option (Ongoing I J Note)) (other : j ≠ i) : (c.setCall i o).ongoing j = c.ongoing j := by
  simp [setCall, other]

/-- A client starts a call, has a request served, or is stopped where it stands. -/
inductive Step (rules : CallRules I J World Client Note) :
    CallAct I Client → CallPool I J World Client Note → CallPool I J World Client Note → Prop
  | start {c : CallPool I J World Client Note} {i : Client} {o : Ongoing I J Note}
      (allowed : rules.starts c i o) : Step rules (.start i o.call) c (c.setCall i (some o))
  | serve {c : CallPool I J World Client Note} {i : Client} {call : I.Req} {req : J.Req}
      {next : J.Ans req → Program J Empty (I.Ans call)} {note : Note} {answer : J.Ans req}
      {world' : World} (at_req : c.ongoing i = some ⟨call, .ask req next, note⟩)
      (admitted : rules.admits c i req answer) (served : rules.serve c.world req answer world') :
      Step rules (.serve i) c
        ({ c with world := world' }.setCall i
          (some ⟨call, next answer, rules.noted note req answer⟩))
  | stop (c : CallPool I J World Client Note) (i : Client) :
      Step rules (.stop i) c (c.setCall i none)

/-- The pools a run can reach. -/
abbrev Reaches (rules : CallRules I J World Client Note) :
    CallPool I J World Client Note → CallPool I J World Client Note → Prop :=
  Relation.ReflTransGen fun c c' => ∃ act, Step rules act c c'

end CallPool

/-! ## The same clients, all at once -/

/-- A call waits for its instant, or has had it. -/
inductive CallStatus (I : Interface) where
  | idle
  | running (call : I.Req)
  | answered (call : I.Req) (answer : I.Ans call)

/-- The abstract state, and what has become of each client's call. -/
structure AtomicPool (I : Interface) (State Client : Type) where
  state : State
  status : Client → CallStatus I

/-- What the atomic clients do in a step of the others: the call of the client that is served
has its instant, once, or waits on. -/
inductive AtomicPool.Follows [DecidableEq Client]
    (spec : State → (call : I.Req) → I.Ans call → State → Prop) :
    CallAct I Client → AtomicPool I State Client → AtomicPool I State Client → Prop
  | start (a : AtomicPool I State Client) (i : Client) (call : I.Req) :
      Follows spec (.start i call) a
        { a with status := Function.update a.status i (.running call) }
  | stop (a : AtomicPool I State Client) (i : Client) :
      Follows spec (.stop i) a { a with status := Function.update a.status i .idle }
  | wait (a : AtomicPool I State Client) (i : Client) : Follows spec (.serve i) a a
  | instant {a : AtomicPool I State Client} {i : Client} {call : I.Req} {answer : I.Ans call}
      {state' : State} (running : a.status i = .running call)
      (served : spec a.state call answer state') :
      Follows spec (.serve i) a
        ⟨state', Function.update a.status i (.answered call answer)⟩

/-- The state and the status of one call move together, if at all. -/
def Instant (spec : State → (call : I.Req) → I.Ans call → State → Prop) (s s' : State)
    (status status' : CallStatus I) : Prop :=
  (s' = s ∧ status' = status) ∨ ∃ call answer, status = .running call ∧ spec s call answer s' ∧
    status' = .answered call answer

/-! ## The proof rule -/

variable [DecidableEq Client]

/-- What a proof supplies: the contract that covers every call under way, what has become of
a call by its view, what the answers of a program are worth, and a relation between the pool,
the views and the abstract state that each kind of step keeps. -/
structure CallLogic (rules : CallRules I J World Client Note)
    (spec : State → (call : I.Req) → I.Ans call → State → Prop) (C : Contract J View)
    (status : View → CallStatus I) (post : (call : I.Req) → View → Except Empty (I.Ans call) → Prop)
    (good : CallPool I J World Client Note → (Client → View) → State → Prop) : Prop where
  start : ∀ c views s i o, good c views s → rules.starts c i o →
    ∃ view, status view = .running o.call ∧ Wp C (post o.call) view o.program ∧
      good (c.setCall i (some o)) (Function.update views i view) s
  serve : ∀ (c : CallPool I J World Client Note) (views : Client → View) (s : State) (i : Client)
      (call : I.Req) (req : J.Req) (next : J.Ans req → Program J Empty (I.Ans call)) (note : Note)
      (answer : J.Ans req) (world' : World),
    good c views s → c.ongoing i = some ⟨call, .ask req next, note⟩ →
    rules.admits c i req answer → C.guard (views i) req → rules.serve c.world req answer world' →
    ∃ view s', C.turn (views i) req answer view ∧
      Instant spec s s' (status (views i)) (status view) ∧
      good ({ c with world := world' }.setCall i
        (some ⟨call, next answer, rules.noted note req answer⟩)) (Function.update views i view) s'
  stop : ∀ c views s i, good c views s → good (c.setCall i none) views s

namespace CallLogic

variable {rules : CallRules I J World Client Note}
  {spec : State → (call : I.Req) → I.Ans call → State → Prop} {C : Contract J View}
  {status : View → CallStatus I} {post : (call : I.Req) → View → Except Empty (I.Ans call) → Prop}
  {good : CallPool I J World Client Note → (Client → View) → State → Prop}

/-- The atomic clients stand where the others do, and every call under way is covered. -/
structure Related (C : Contract J View) (status : View → CallStatus I)
    (post : (call : I.Req) → View → Except Empty (I.Ans call) → Prop)
    (good : CallPool I J World Client Note → (Client → View) → State → Prop)
    (c : CallPool I J World Client Note) (a : AtomicPool I State Client) (views : Client → View) :
    Prop where
  good : good c views a.state
  calls : ∀ i o, c.ongoing i = some o →
    a.status i = status (views i) ∧ Wp C (post o.call) (views i) o.program

private theorem Related.updated {c c' : CallPool I J World Client Note}
    {a a' : AtomicPool I State Client} {views : Client → View} {o : Ongoing I J Note}
    (related : Related C status post good c a views) (i : Client) (view : View)
    (others : ∀ j, j ≠ i → c'.ongoing j = c.ongoing j ∧ a'.status j = a.status j)
    (at_i : c'.ongoing i = some o) (stands : a'.status i = status view)
    (covered : Wp C (post o.call) view o.program)
    (holds : good c' (Function.update views i view) a'.state) :
    Related C status post good c' a' (Function.update views i view) := by
  refine ⟨holds, fun j o' at_j => ?_⟩
  by_cases own : j = i
  · subst own
    cases at_i.symm.trans at_j
    simpa using ⟨stands, covered⟩
  · obtain ⟨ongoing, same⟩ := others j own
    simpa [own, same] using related.calls j o' (ongoing ▸ at_j)

/-- Each step is followed by a step of the atomic clients. -/
theorem follows (logic : CallLogic rules spec C status post good) (act : CallAct I Client)
    (c c' : CallPool I J World Client Note) (a : AtomicPool I State Client)
    (related : ∃ views, Related C status post good c a views)
    (step : CallPool.Step rules act c c') :
    ∃ a', AtomicPool.Follows spec act a a' ∧ ∃ views, Related C status post good c' a' views := by
  obtain ⟨views, related⟩ := related
  cases step with
  | @start _ i o allowed =>
    obtain ⟨view, starts, covered, holds⟩ := logic.start c views a.state i o related.good allowed
    refine ⟨_, .start a i o.call, _, related.updated i view (fun j other => ?_)
      (c.setCall_self i _) ?_ covered holds⟩
    · exact ⟨c.setCall_ne _ other, Function.update_of_ne other _ _⟩
    · rw [starts]
      exact Function.update_self _ _ _
  | @serve _ i call req next note answer world' at_req admitted served =>
    obtain ⟨stands, covered⟩ := related.calls i _ at_req
    obtain ⟨view, s', turned, moved, holds⟩ := logic.serve c views a.state i call req next note
      answer world' related.good at_req admitted covered.1 served
    have covered' := covered.2 answer view turned
    rcases moved with ⟨same, still⟩ | ⟨call', answer', running, instant, had⟩
    · subst same
      refine ⟨a, .wait a i, _, related.updated i view (fun j other => ?_)
        (CallPool.setCall_self _ i _) (stands.trans still.symm) covered' holds⟩
      exact ⟨CallPool.setCall_ne _ _ other, rfl⟩
    · refine ⟨_, .instant (stands.trans running) instant, _,
        related.updated i view (fun j other => ?_) (CallPool.setCall_self _ i _) ?_ covered'
          holds⟩
      · exact ⟨CallPool.setCall_ne _ _ other, Function.update_of_ne other _ _⟩
      · rw [had]
        exact Function.update_self _ _ _
  | stop _ i =>
    refine ⟨_, .stop a i, views, logic.stop c views a.state i related.good, fun j o at_j => ?_⟩
    by_cases own : j = i
    · subst own
      rw [CallPool.setCall_self] at at_j
      cases at_j
    · rw [CallPool.setCall_ne _ _ own] at at_j
      simpa [own] using related.calls j o at_j

end CallLogic

end Gonzalo.Lib
