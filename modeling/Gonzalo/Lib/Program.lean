import Mathlib

/-!
# Request programs

A client of a store, a bucket or a file system issues one request at a time and
continues with the answer. `Program` is the tree of everything such a client may
do; who answers, and what others do between two requests, is left open. A
`Contract` says what a client may know (`View`), which requests it may issue at a
view, and how a request and its answer change the view. `Wp` is the weakest
precondition of a program under a contract, so a proof about a program follows
the program's text and needs no model of the server.

`exec` is the special case of one client and one deterministic server.
-/

set_option autoImplicit false

namespace Gonzalo.Lib

/-- The requests of a server and, for each of them, the type of its answers. -/
structure Interface where
  Req : Type
  Ans : Req → Type

/-- A program over an interface: it ends with a value, ends with an error, or
issues a request and continues with the answer. -/
inductive Program (I : Interface) (ε α : Type) : Type where
  | done (value : α)
  | fail (error : ε)
  | ask (req : I.Req) (next : I.Ans req → Program I ε α)

namespace Program

variable {I : Interface} {ε α β σ : Type}

protected def bind (p : Program I ε α) (f : α → Program I ε β) : Program I ε β :=
  match p with
  | done value => f value
  | fail error => fail error
  | ask req next => ask req fun answer => (next answer).bind f

instance : Monad (Program I ε) where
  pure := done
  bind := Program.bind

@[simp] theorem pure_eq (value : α) : (pure value : Program I ε α) = done value := rfl

@[simp] theorem done_bind (value : α) (f : α → Program I ε β) :
    (done value >>= f) = f value := rfl

@[simp] theorem fail_bind (error : ε) (f : α → Program I ε β) :
    ((fail error : Program I ε α) >>= f) = fail error := rfl

@[simp] theorem ask_bind (req : I.Req) (next : I.Ans req → Program I ε α)
    (f : α → Program I ε β) : (ask req next >>= f) = ask req fun x => next x >>= f := rfl

theorem bind_assoc {γ : Type} (p : Program I ε α) (f : α → Program I ε β)
    (g : β → Program I ε γ) : (p >>= f >>= g) = p >>= fun value => f value >>= g := by
  induction p with
  | done value => rfl
  | fail error => rfl
  | ask req next ih => exact congrArg (ask req) (funext ih)

/-- Issue one request and return its answer. -/
def request (req : I.Req) : Program I ε (I.Ans req) := ask req done

/-- Propagate an error that an answer carries, as `?` does. -/
def ofExcept : Except ε α → Program I ε α
  | .ok value => done value
  | .error error => fail error

@[simp] theorem ofExcept_ok (value : α) : (ofExcept (.ok value) : Program I ε α) = done value := rfl

@[simp] theorem ofExcept_error (error : ε) :
    (ofExcept (.error error) : Program I ε α) = fail error := rfl

/-- Run the program and return how it ended; the program itself no longer fails. -/
def attempt {ε' : Type} : Program I ε α → Program I ε' (Except ε α)
  | done value => done (.ok value)
  | fail error => done (.error error)
  | ask req next => ask req fun answer => (next answer).attempt

/-- The same program with its errors renamed. -/
def mapError {ε' : Type} (f : ε → ε') : Program I ε α → Program I ε' α
  | done value => done value
  | fail error => fail (f error)
  | ask req next => ask req fun answer => (next answer).mapError f

/-- The request the program issues next. -/
def nextReq : Program I ε α → Option I.Req
  | ask req _ => some req
  | _ => none

@[simp] theorem nextReq_done (value : α) : (done value : Program I ε α).nextReq = none := rfl

@[simp] theorem nextReq_fail (error : ε) : (fail error : Program I ε α).nextReq = none := rfl

@[simp] theorem nextReq_ask (req : I.Req) (next : I.Ans req → Program I ε α) :
    (ask req next).nextReq = some req := rfl

end Program

/-- What a client may know and do: `guard` is what it must establish to issue a
request, `turn` every view it may have once the request is answered. Whatever
other clients do in between is part of `turn`. -/
structure Contract (I : Interface) (View : Type) where
  guard : View → I.Req → Prop
  turn : View → (req : I.Req) → I.Ans req → View → Prop

variable {I : Interface} {ε α β σ View : Type}

/-- Every request of the program meets the guard at the view it is issued at, and
every end of the program meets `post`. -/
def Wp (C : Contract I View) (post : View → Except ε α → Prop) : View → Program I ε α → Prop
  | view, .done value => post view (.ok value)
  | view, .fail error => post view (.error error)
  | view, .ask req next =>
    C.guard view req ∧ ∀ answer view', C.turn view req answer view' → Wp C post view' (next answer)

/-- The postcondition of the first half of a sequence. -/
def seqPost (C : Contract I View) (post : View → Except ε β → Prop)
    (f : α → Program I ε β) : View → Except ε α → Prop
  | view, .ok value => Wp C post view (f value)
  | view, .error error => post view (.error error)

namespace Wp

variable {C : Contract I View} {view : View}

@[simp] theorem done_iff {post : View → Except ε α → Prop} {value : α} :
    Wp C post view (.done value) ↔ post view (.ok value) := Iff.rfl

@[simp] theorem fail_iff {post : View → Except ε α → Prop} {error : ε} :
    Wp C post view (.fail error) ↔ post view (.error error) := Iff.rfl

theorem ask_iff {post : View → Except ε α → Prop} {req : I.Req}
    {next : I.Ans req → Program I ε α} :
    Wp C post view (.ask req next) ↔
      C.guard view req ∧ ∀ answer view', C.turn view req answer view' →
        Wp C post view' (next answer) := Iff.rfl

theorem mono {post post' : View → Except ε α → Prop}
    (weaker : ∀ view result, post view result → post' view result) {p : Program I ε α}
    (holds : Wp C post view p) : Wp C post' view p := by
  induction p generalizing view with
  | done value => exact weaker _ _ holds
  | fail error => exact weaker _ _ holds
  | ask req next ih =>
    exact ⟨holds.1, fun answer view' turned => ih answer (holds.2 answer view' turned)⟩

/-- Any program is covered by a contract that lets it ask anything and claims nothing. -/
theorem of_free {post : View → Except ε α → Prop} (guards : ∀ view req, C.guard view req)
    (ends : ∀ view result, post view result) (p : Program I ε α) : Wp C post view p := by
  induction p generalizing view with
  | done value => exact ends _ _
  | fail error => exact ends _ _
  | ask req next ih => exact ⟨guards _ _, fun answer view' _ => ih answer⟩

/-- A contract whose requests may all be issued and whose turns are fewer covers what
the other one does. -/
theorem of_turns {C' : Contract I View} {post : View → Except ε α → Prop}
    (guards : ∀ view req, C.guard view req → C'.guard view req)
    (turns : ∀ view req answer view', C'.turn view req answer view' →
      C.turn view req answer view') {p : Program I ε α} (holds : Wp C post view p) :
    Wp C' post view p := by
  induction p generalizing view with
  | done value => exact holds
  | fail error => exact holds
  | ask req next ih =>
    exact ⟨guards view req holds.1, fun answer view' turned =>
      ih answer (holds.2 answer view' (turns view req answer view' turned))⟩

/-- Sequencing: the postcondition of the first program is the precondition of
the second, and an error of the first is the error of both. -/
theorem bind_iff {post : View → Except ε β → Prop} {p : Program I ε α}
    {f : α → Program I ε β} :
    Wp C post view (p >>= f) ↔ Wp C (seqPost C post f) view p := by
  induction p generalizing view with
  | done value => exact Iff.rfl
  | fail error => exact Iff.rfl
  | ask req next ih =>
    rw [Program.ask_bind, ask_iff, ask_iff]
    exact and_congr_right fun _ => forall₃_congr fun answer _ _ => ih answer

/-- The sequencing rule with a chosen intermediate assertion. -/
theorem bind {mid : View → Except ε α → Prop} {post : View → Except ε β → Prop}
    {p : Program I ε α} {f : α → Program I ε β} (first : Wp C mid view p)
    (second : ∀ view' value, mid view' (.ok value) → Wp C post view' (f value))
    (error : ∀ view' e, mid view' (.error e) → post view' (.error e)) :
    Wp C post view (p >>= f) := by
  refine bind_iff.mpr (first.mono ?_)
  intro view' result held
  cases result with
  | ok value => exact second view' value held
  | error e => exact error view' e held

/-- A program in sequence that starts with a sequence. -/
theorem assoc {γ : Type} {post : View → Except ε γ → Prop} {p : Program I ε α}
    {f : α → Program I ε β} {g : β → Program I ε γ}
    (holds : Wp C post view (p >>= fun value => f value >>= g)) :
    Wp C post view (p >>= f >>= g) := by
  rwa [Program.bind_assoc]

theorem request_bind_iff {req : I.Req} {post : View → Except ε β → Prop}
    {f : I.Ans req → Program I ε β} :
    Wp C post view (Program.request req >>= f) ↔
      C.guard view req ∧ ∀ answer view', C.turn view req answer view' →
        Wp C post view' (f answer) := Iff.rfl

theorem ofExcept_bind_iff {post : View → Except ε β → Prop} {result : Except ε α}
    {f : α → Program I ε β} :
    Wp C post view (Program.ofExcept result >>= f) ↔
      match result with
      | .ok value => Wp C post view (f value)
      | .error error => post view (.error error) := by
  cases result <;> exact Iff.rfl

theorem attempt {ε' : Type} {post : View → Except ε' (Except ε α) → Prop} {p : Program I ε α}
    (holds : Wp C (fun view' result => post view' (.ok result)) view p) :
    Wp C post view p.attempt := by
  induction p generalizing view with
  | done value => exact holds
  | fail error => exact holds
  | ask req next ih =>
    exact ⟨holds.1, fun answer view' turned => ih answer (holds.2 answer view' turned)⟩

theorem mapError {ε' : Type} {rename : ε → ε'} {post : View → Except ε' α → Prop}
    {p : Program I ε α} (holds : Wp C (fun view' result => post view' (result.mapError rename))
      view p) : Wp C post view (p.mapError rename) := by
  induction p generalizing view with
  | done value => exact holds
  | fail error => exact holds
  | ask req next ih =>
    exact ⟨holds.1, fun answer view' turned => ih answer (holds.2 answer view' turned)⟩

/-- Loop rule: an assertion about the items still to come and the accumulator
that holds at the start and survives each turn holds when the loop ends. -/
theorem foldlM {τ : Type} {body : σ → τ → Program I ε σ}
    {post : View → Except ε σ → Prop} (inv : List τ → View → σ → Prop)
    (turn : ∀ item rest view' acc, inv (item :: rest) view' acc →
      Wp C (fun view'' result => match result with
        | .ok acc' => inv rest view'' acc'
        | .error e => post view'' (.error e)) view' (body acc item))
    (finish : ∀ view' acc, inv [] view' acc → post view' (.ok acc))
    {items : List τ} {acc : σ} (start : inv items view acc) :
    Wp C post view (items.foldlM body acc) := by
  induction items generalizing view acc with
  | nil => exact finish view acc start
  | cons item rest ih =>
    rw [List.foldlM_cons]
    exact (turn item rest view acc start).bind (fun view' acc' held => ih held)
      (fun view' e held => held)

/-- Loop rule without an accumulator. -/
theorem forM {τ : Type} {body : τ → Program I ε PUnit}
    {post : View → Except ε PUnit → Prop} (inv : List τ → View → Prop)
    (turn : ∀ item rest view', inv (item :: rest) view' →
      Wp C (fun view'' result => match result with
        | .ok _ => inv rest view''
        | .error e => post view'' (.error e)) view' (body item))
    (finish : ∀ view', inv [] view' → post view' (.ok ())) {items : List τ}
    (start : inv items view) : Wp C post view (items.forM body) := by
  induction items generalizing view with
  | nil => exact finish view start
  | cons item rest ih =>
    rw [List.forM_eq_forM, List.forM_cons]
    exact (turn item rest view start).bind (fun view' _ held => ih held)
      (fun view' e held => held)

end Wp

/-! ## Programs of a larger interface -/

/-- The requests of `I` among those of `J`, with answers to read as those of `I`. -/
structure Interface.Part (I J : Interface) where
  req : I.Req → J.Req
  ans : ∀ r, J.Ans (req r) → I.Ans r

/-- The same program, issuing its requests to the larger server. -/
def Program.lift {J : Interface} (part : Interface.Part I J) : Program I ε α → Program J ε α
  | .done value => .done value
  | .fail error => .fail error
  | .ask req next => .ask (part.req req) fun answer => (next (part.ans req answer)).lift part

theorem Program.lift_bind {J : Interface} (part : Interface.Part I J) (p : Program I ε α)
    (f : α → Program I ε β) : (p >>= f).lift part = p.lift part >>= fun value => (f value).lift part := by
  induction p with
  | done value => rfl
  | fail error => rfl
  | ask req next ih => exact congrArg (Program.ask (part.req req)) (funext fun answer => ih _)

theorem Program.lift_foldlM {J : Interface} (part : Interface.Part I J) {τ : Type}
    (body : σ → τ → Program I ε σ) (items : List τ) (acc : σ) :
    (items.foldlM body acc).lift part =
      items.foldlM (fun acc item => (body acc item).lift part) acc := by
  induction items generalizing acc with
  | nil => rfl
  | cons item rest ih =>
    rw [List.foldlM_cons, List.foldlM_cons, lift_bind]
    exact congrArg _ (funext ih)

/-- A contract of the larger server, for clients that use only a part of it. -/
def Contract.part {J : Interface} (C : Contract J View) (part : Interface.Part I J) :
    Contract I View where
  guard view req := C.guard view (part.req req)
  turn view req answer view' :=
    ∃ answer', part.ans req answer' = answer ∧ C.turn view (part.req req) answer' view'

theorem Wp.lift {J : Interface} {part : Interface.Part I J} {C : Contract J View} {view : View}
    {post : View → Except ε α → Prop} {p : Program I ε α} (holds : Wp (C.part part) post view p) :
    Wp C post view (p.lift part) := by
  induction p generalizing view with
  | done value => exact holds
  | fail error => exact holds
  | ask req next ih =>
    exact ⟨holds.1, fun answer view' turned => ih _ (holds.2 _ view' ⟨answer, rfl, turned⟩)⟩

namespace Program

variable {World : Type}

/-- Run the program against a deterministic server, with nobody in between. -/
def exec (serve : World → (req : I.Req) → World × I.Ans req) :
    World → Program I ε α → World × Except ε α
  | world, done value => (world, .ok value)
  | world, fail error => (world, .error error)
  | world, ask req next => exec serve (serve world req).1 (next (serve world req).2)

/-- The first `n` requests of such a run: the world by then, and what is left. -/
def steps (serve : World → (req : I.Req) → World × I.Ans req) :
    Nat → World → Program I ε α → World × Program I ε α
  | n + 1, world, ask req next => steps serve n (serve world req).1 (next (serve world req).2)
  | _, world, p => (world, p)

variable {serve : World → (req : I.Req) → World × I.Ans req} {world : World}

@[simp] theorem exec_done (value : α) :
    exec serve world (done value : Program I ε α) = (world, .ok value) := rfl

@[simp] theorem exec_fail (error : ε) :
    exec serve world (fail error : Program I ε α) = (world, .error error) := rfl

@[simp] theorem exec_ask (req : I.Req) (next : I.Ans req → Program I ε α) :
    exec serve world (ask req next) = exec serve (serve world req).1 (next (serve world req).2) :=
  rfl

theorem exec_bind (p : Program I ε α) (f : α → Program I ε β) :
    exec serve world (p >>= f) =
      match exec serve world p with
      | (world', .ok value) => exec serve world' (f value)
      | (world', .error error) => (world', .error error) := by
  induction p generalizing world with
  | done value => rfl
  | fail error => rfl
  | ask req next ih =>
    rw [ask_bind, exec_ask, exec_ask]
    exact ih _

@[simp] theorem exec_request (req : I.Req) :
    exec serve world (request req : Program I ε (I.Ans req)) =
      ((serve world req).1, .ok (serve world req).2) := rfl

@[simp] theorem exec_request_bind (req : I.Req) (f : I.Ans req → Program I ε β) :
    exec serve world (request req >>= f) =
      exec serve (serve world req).1 (f (serve world req).2) := rfl

theorem exec_attempt {ε' : Type} (p : Program I ε α) :
    exec serve world (p.attempt : Program I ε' (Except ε α)) =
      ((exec serve world p).1, .ok (exec serve world p).2) := by
  induction p generalizing world with
  | done value => rfl
  | fail error => rfl
  | ask req next ih => exact ih _

theorem exec_mapError {ε' : Type} (f : ε → ε') (p : Program I ε α) :
    exec serve world (p.mapError f) =
      ((exec serve world p).1, (exec serve world p).2.mapError f) := by
  induction p generalizing world with
  | done value => rfl
  | fail error => rfl
  | ask req next ih => exact ih _

/-- Enough requests bring the run to its end. -/
theorem exists_steps_eq_exec (p : Program I ε α) :
    ∃ n, p.steps serve n world = ((p.exec serve world).1, ofExcept (p.exec serve world).2) := by
  induction p generalizing world with
  | done value => exact ⟨0, rfl⟩
  | fail error => exact ⟨0, rfl⟩
  | ask req next ih =>
    obtain ⟨n, same⟩ := @ih (serve world req).2 (serve world req).1
    exact ⟨n + 1, same⟩

/-- The requests such a run issues, in order. -/
def trace (serve : World → (req : I.Req) → World × I.Ans req) :
    World → Program I ε α → List I.Req
  | _, done _ => []
  | _, fail _ => []
  | world, ask req next => req :: trace serve (serve world req).1 (next (serve world req).2)

/-- A run of the program with nobody in between, against a server whose answers
`serve` relates to its states. -/
inductive Runs (serve : World → (req : I.Req) → I.Ans req → World → Prop) :
    World → Program I ε α → World → Except ε α → Prop
  | done (world : World) (value : α) : Runs serve world (done value) world (.ok value)
  | fail (world : World) (error : ε) : Runs serve world (fail error) world (.error error)
  | ask {world world' world'' : World} {req : I.Req} {next : I.Ans req → Program I ε α}
      {answer : I.Ans req} {result : Except ε α} (served : serve world req answer world')
      (later : Runs serve world' (next answer) world'' result) :
      Runs serve world (ask req next) world'' result

theorem Runs.done_iff {serve : World → (req : I.Req) → I.Ans req → World → Prop}
    {world world' : World} {value : α} {result : Except ε α} :
    Runs serve world (Program.done value) world' result ↔ world' = world ∧ result = .ok value := by
  constructor
  · intro run
    cases run
    exact ⟨rfl, rfl⟩
  · rintro ⟨rfl, rfl⟩
    exact .done _ value

theorem Runs.fail_iff {serve : World → (req : I.Req) → I.Ans req → World → Prop}
    {world world' : World} {error : ε} {result : Except ε α} :
    Runs serve world (Program.fail error) world' result ↔ world' = world ∧ result = .error error := by
  constructor
  · intro run
    cases run
    exact ⟨rfl, rfl⟩
  · rintro ⟨rfl, rfl⟩
    exact .fail _ error

theorem Runs.ask_iff {serve : World → (req : I.Req) → I.Ans req → World → Prop}
    {world world' : World} {req : I.Req} {next : I.Ans req → Program I ε α}
    {result : Except ε α} :
    Runs serve world (Program.ask req next) world' result ↔
      ∃ answer world₁, serve world req answer world₁ ∧ Runs serve world₁ (next answer) world' result := by
  constructor
  · intro run
    cases run with
    | ask served later => exact ⟨_, _, served, later⟩
  · rintro ⟨answer, world₁, served, later⟩
    exact .ask served later

theorem Runs.ofExcept_iff {serve : World → (req : I.Req) → I.Ans req → World → Prop}
    {world world' : World} {value result : Except ε α} :
    Runs serve world (Program.ofExcept value) world' result ↔ world' = world ∧ result = value := by
  cases value with
  | ok value => exact Runs.done_iff
  | error error => exact Runs.fail_iff

/-- A run of the first half of a sequence, continued by a run of the second. -/
theorem Runs.bind {serve : World → (req : I.Req) → I.Ans req → World → Prop} {β : Type}
    {world world₁ world' : World} {p : Program I ε α} {f : α → Program I ε β} {value : α}
    {result : Except ε β} (first : Runs serve world p world₁ (.ok value))
    (second : Runs serve world₁ (f value) world' result) :
    Runs serve world (p >>= f) world' result := by
  generalize ended : (Except.ok value : Except ε α) = outcome at first
  induction first with
  | done world own =>
    cases ended
    exact second
  | fail => cases ended
  | ask served later ih => exact .ask served (ih second ended)

/-- A run cut short after any number of requests. -/
inductive Cut (serve : World → (req : I.Req) → I.Ans req → World → Prop) :
    World → Program I ε α → World → Prop
  | here (world : World) (p : Program I ε α) : Cut serve world p world
  | ask {world world' world'' : World} {req : I.Req} {next : I.Ans req → Program I ε α}
      {answer : I.Ans req} (served : serve world req answer world')
      (later : Cut serve world' (next answer) world'') : Cut serve world (ask req next) world''

theorem Runs.mono {serve serve' : World → (req : I.Req) → I.Ans req → World → Prop}
    (weaker : ∀ w req answer w', serve w req answer w' → serve' w req answer w') {w w' : World}
    {p : Program I ε α} {result : Except ε α} (run : Runs serve w p w' result) :
    Runs serve' w p w' result := by
  induction run with
  | done world value => exact .done world value
  | fail world error => exact .fail world error
  | ask served later ih => exact .ask (weaker _ _ _ _ served) ih

/-- A run to the end may have been cut there. -/
theorem Runs.cut {serve : World → (req : I.Req) → I.Ans req → World → Prop} {world world' : World}
    {p : Program I ε α} {result : Except ε α} (run : Runs serve world p world' result) :
    Cut serve world p world' := by
  induction run with
  | done world value => exact .here world _
  | fail world error => exact .here world _
  | ask served later ih => exact .ask served ih

/-- What every answer of the server keeps holds wherever a run is cut. -/
theorem Cut.invariant {serve : World → (req : I.Req) → I.Ans req → World → Prop}
    {inv : World → Prop}
    (kept : ∀ world req answer world', inv world → serve world req answer world' → inv world')
    {world world' : World} {p : Program I ε α} (run : Cut serve world p world')
    (start : inv world) : inv world' := by
  induction run with
  | here world p => exact start
  | ask served later ih => exact ih (kept _ _ _ _ start served)

/-- A run of a verified program ends in its postcondition, if every answer the
server may give is a turn the contract covers. -/
theorem Runs.sound {serve : World → (req : I.Req) → I.Ans req → World → Prop}
    {C : Contract I View} {post : View → Except ε α → Prop} (sim : World → View → Prop)
    (served : ∀ world view req answer world', sim world view → C.guard view req →
      serve world req answer world' → ∃ view', C.turn view req answer view' ∧ sim world' view')
    {world world' : World} {p : Program I ε α} {result : Except ε α}
    (run : Runs serve world p world' result) {view : View} (related : sim world view)
    (holds : Wp C post view p) : ∃ view', sim world' view' ∧ post view' result := by
  induction run generalizing view with
  | done world value => exact ⟨view, related, holds⟩
  | fail world error => exact ⟨view, related, holds⟩
  | ask answered later ih =>
    obtain ⟨view', turned, related'⟩ := served _ view _ _ _ related holds.1 answered
    exact ih related' (holds.2 _ view' turned)

end Program

/-- The contract of a client alone with a server that may answer in several ways. -/
def Contract.ofRelation {World : Type}
    (serve : World → (req : I.Req) → I.Ans req → World → Prop) : Contract I World where
  guard _ _ := True
  turn := serve

/-- What is proved under such a contract holds of every run. -/
theorem Wp.runs {World : Type} {serve : World → (req : I.Req) → I.Ans req → World → Prop}
    {post : World → Except ε α → Prop} {world world' : World} {p : Program I ε α}
    {result : Except ε α} (holds : Wp (.ofRelation serve) post world p)
    (run : Program.Runs serve world p world' result) : post world' result := by
  obtain ⟨_, rfl, done⟩ := run.sound (C := .ofRelation serve) (· = ·)
    (fun w _ req answer w' same _ served => ⟨w', same ▸ served, rfl⟩) rfl holds
  exact done

/-- The contract of a client alone with its server: the view is the world itself,
and only the requests in `allowed` may be issued. -/
def Contract.ofServer {World : Type} (serve : World → (req : I.Req) → World × I.Ans req)
    (allowed : I.Req → Prop) : Contract I World where
  guard _ req := allowed req
  turn world req answer world' := answer = (serve world req).2 ∧ world' = (serve world req).1

namespace Wp

variable {World : Type} {serve : World → (req : I.Req) → World × I.Ans req}
  {allowed : I.Req → Prop} {world : World}

theorem server_ask_iff {post : World → Except ε α → Prop} {req : I.Req}
    {next : I.Ans req → Program I ε α} :
    Wp (.ofServer serve allowed) post world (.ask req next) ↔
      allowed req ∧ Wp (.ofServer serve allowed) post (serve world req).1
        (next (serve world req).2) := by
  refine and_congr_right fun _ => ⟨fun holds => holds _ _ ⟨rfl, rfl⟩, ?_⟩
  rintro holds answer world' ⟨rfl, rfl⟩
  exact holds

/-- What is proved under the server's contract holds of the run. -/
theorem exec_server {post : World → Except ε α → Prop} {p : Program I ε α}
    (holds : Wp (.ofServer serve allowed) post world p) :
    post (p.exec serve world).1 (p.exec serve world).2 ∧
      ∀ req ∈ p.trace serve world, allowed req := by
  induction p generalizing world with
  | done value => exact ⟨holds, by simp [Program.trace]⟩
  | fail error => exact ⟨holds, by simp [Program.trace]⟩
  | ask req next ih =>
    obtain ⟨ok, rest⟩ := server_ask_iff.mp holds
    obtain ⟨ended, issued⟩ := ih _ rest
    refine ⟨ended, fun req' member => ?_⟩
    rcases List.mem_cons.mp member with rfl | later
    · exact ok
    · exact issued req' later

/-- What every allowed request keeps, a run of allowed requests keeps. -/
theorem exec_kept (inv : World → Prop) {post : World → Except ε α → Prop} {p : Program I ε α}
    (kept : ∀ world req, allowed req → inv world → inv (serve world req).1)
    (holds : Wp (.ofServer serve allowed) post world p) (start : inv world) :
    inv (p.exec serve world).1 := by
  induction p generalizing world with
  | done value => exact start
  | fail error => exact start
  | ask req next ih =>
    obtain ⟨ok, rest⟩ := server_ask_iff.mp holds
    exact ih _ rest (kept world req ok start)

end Wp

end Gonzalo.Lib
