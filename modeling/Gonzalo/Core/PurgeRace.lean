import Gonzalo.Core.MemStore
import Gonzalo.Lib.Pool

/-!
# A purge among other clients

A client of a store that decides on a record it has read and purges by revision in a
later call, while other clients make any calls in between. A purge checks nothing but
the revision, so it removes what the client judged only if no other record of that
revision has come to its key since. `Watched` notes what the client last read, and
`Safe` is what a client may rely on about the record stored there by now.
-/

set_option autoImplicit false

namespace Gonzalo.Core
open Gonzalo.Lib

def storeInterface : Interface := ⟨StoreReq, StoreReq.Ans⟩

abbrev StoreProgram (α : Type) : Type := Program storeInterface CoreError α

namespace StoreProgram

/-- Issue one call. -/
def call (req : StoreReq) : StoreProgram req.Ans := @Program.request storeInterface _ req

def listRaw (keys : KeyPrefix) : StoreProgram (List RecordKey) := call (.listRaw keys) >>= .ofExcept

def getRaw (key : RecordKey) : StoreProgram (Option Record) := call (.getRaw key) >>= .ofExcept

def purge (key : RecordKey) (expected : Revision) : StoreProgram DeleteResult :=
  call (.purge key expected) >>= .ofExcept

end StoreProgram

/-- A store, and what the client at work last read in it and has not acted on. -/
structure Watched where
  store : MemStore
  read : Option (RecordKey × Option Record)

namespace Watched

variable [Blake3]

/-- The world after a call that reads nothing raw. -/
def after (w : Watched) (nowMs : Int) (req : StoreReq) : Watched :=
  { w with store := (w.store.serve nowMs req).1 }

/-- A purge settles what the client has read. -/
def settled (w : Watched) : StoreReq → Watched
  | .purge _ _ => { w with read := none }
  | _ => w

/-- How a call of the client may be answered. -/
inductive Served (w : Watched) : (req : StoreReq) → req.Ans → Watched → Prop
  | read (key : RecordKey) :
      Served w (.getRaw key) (.ok (w.store.getRaw key))
        { w with read := some (key, w.store.getRaw key) }
  | call (nowMs : Int) (req : StoreReq) (other : ∀ key, req ≠ .getRaw key) :
      Served w req (w.store.serve nowMs req).2 ((w.after nowMs req).settled req)
  | failed (req : StoreReq) (e : CoreError) : Served w req (req.failed e) (w.settled req)
  | lost (nowMs : Int) (req : StoreReq) (e : CoreError) :
      Served w req (req.failed e) ((w.after nowMs req).settled req)

/-- One client runs one of `programs`; the others make any call that `allowed` admits in
the state it lands in. -/
def rules {α : Type} (programs : StoreProgram α → Prop)
    (allowed : Watched → Int → StoreReq → Prop) :
    Rules storeInterface Watched Unit CoreError α where
  serve w _ := Served w
  starts _ := programs
  ambient w w' := ∃ nowMs req, allowed w nowMs req ∧ w' = w.after nowMs req
  admits _ _ _ := True

/-- Every call succeeds, at time `nowMs`. -/
def serveAt (nowMs : Int) (w : Watched) : (req : StoreReq) → Watched × req.Ans
  | .getRaw key => ({ w with read := some (key, w.store.getRaw key) }, .ok (w.store.getRaw key))
  | req => ((w.after nowMs req).settled req, (w.store.serve nowMs req).2)

theorem serveAt_served (nowMs : Int) (w : Watched) (req : StoreReq) :
    Served w req (serveAt nowMs w req).2 (serveAt nowMs w req).1 := by
  cases req with
  | getRaw key => exact .read key
  | _ => exact .call nowMs _ (by simp)

end Watched

abbrev WatchedPool (α : Type) : Type := Pool storeInterface Watched Unit CoreError α

namespace WatchedPool

variable {α : Type} [Blake3]

/-- Start the client on `p` and serve its first `n` calls. -/
def startSteps (c : WatchedPool α) (p : StoreProgram α) (nowMs : Int) (n : Nat) : WatchedPool α :=
  let left := p.steps (Watched.serveAt nowMs) n c.world
  { c with world := left.1 }.setClient () left.2

/-- Other clients make these calls, each at its time. -/
def otherCalls (c : WatchedPool α) (calls : List (Int × StoreReq)) : WatchedPool α :=
  { c with world := calls.foldl (fun w call => w.after call.1 call.2) c.world }

theorem reaches_startSteps (allowed : Watched → Int → StoreReq → Prop) (c : WatchedPool α)
    (p : StoreProgram α) (nowMs : Int) (n : Nat) :
    Pool.Reaches (Watched.rules (· = p) allowed) c (c.startSteps p nowMs n) := by
  refine (Relation.ReflTransGen.single (.start () p rfl)).trans ?_
  have served := Watched.serveAt_served nowMs
  have steps := @Pool.reaches_steps _ _ _ _ _ _ (Watched.rules (· = p) allowed) () _ served
    (fun _ _ => trivial) n _ _ (Pool.setClient_self c () p)
  simpa [startSteps, Pool.setClient] using steps

theorem reaches_otherCall {programs : StoreProgram α → Prop}
    {allowed : Watched → Int → StoreReq → Prop} (c : WatchedPool α) {nowMs : Int} {req : StoreReq}
    (admitted : allowed c.world nowMs req) :
    Pool.Reaches (Watched.rules programs allowed) c (c.otherCalls [(nowMs, req)]) :=
  .single (.ambient _ ⟨nowMs, req, admitted, rfl⟩)

theorem reaches_otherCalls {programs : StoreProgram α → Prop} (calls : List (Int × StoreReq))
    (c : WatchedPool α) :
    Pool.Reaches (Watched.rules programs fun _ _ _ => True) c (c.otherCalls calls) := by
  induction calls generalizing c with
  | nil => exact .refl
  | cons call rest ih => exact (c.reaches_otherCall trivial).trans (ih _)

end WatchedPool

/-! ## What a client may rely on -/

/-- What may be stored at a key once the client has read something there. Nothing is
asked of the record it read itself. -/
structure Reliance where
  safe : RecordKey → Option Record → Record → Prop
  own : ∀ key r, safe key (some r) r

namespace Reliance

variable [Blake3]

/-- What the client read last still tells what may be stored at the key. -/
def Holds (reliance : Reliance) (w : Watched) : Prop :=
  ∀ key found, w.read = some (key, found) → ∀ r, w.store.getRaw key = some r →
    reliance.safe key found r

/-- A call that files a safe record or none at the key last read. -/
def Keeps (reliance : Reliance) (w : Watched) (nowMs : Int) (req : StoreReq) : Prop :=
  ∀ key found filed, w.read = some (key, found) → w.store.files nowMs req = some filed →
    filed.key = key → reliance.safe key found filed

/-- The client reads, purges where `judged` says so, and makes no other call that
changes the store. Its view is what it last read and has not acted on. -/
def contract (judged : RecordKey → Option Record → Revision → Prop) :
    Contract storeInterface (Option (RecordKey × Option Record)) where
  guard v
    | .purge key expected => ∃ found, v = some (key, found) ∧ judged key found expected
    | .getRaw _ | .listRaw _ => True
    | _ => False
  turn v req answer v' :=
    match req, answer with
    | .getRaw key, .ok found => v' = some (key, found)
    | .purge _ _, _ => v' = none
    | _, _ => v' = v

theorem Holds.after {reliance : Reliance} {w : Watched} {nowMs : Int} {req : StoreReq}
    (holds : reliance.Holds w) (keeps : reliance.Keeps w nowMs req) :
    reliance.Holds (w.after nowMs req) := by
  intro key found read r stored
  rcases MemStore.getRaw_serve stored with before | ⟨filed, own⟩
  · exact holds key found read r before
  · exact keeps key found r read filed own

omit [Blake3] in
theorem Holds.settled {reliance : Reliance} {w : Watched} (holds : reliance.Holds w)
    (req : StoreReq) : reliance.Holds (w.settled req) := by
  cases req with
  | purge key expected =>
    intro key found read
    cases read
  | _ => exact holds

/-- A client's own calls file nothing. -/
theorem keeps_of_guard {reliance : Reliance}
    {judged : RecordKey → Option Record → Revision → Prop}
    {v : Option (RecordKey × Option Record)} {w : Watched} {nowMs : Int} {req : StoreReq}
    (guarded : (contract judged).guard v req) : reliance.Keeps w nowMs req := by
  intro key found filed _ files
  cases req with
  | getRaw k => cases files
  | listRaw k => cases files
  | purge k e => cases files
  | _ => exact guarded.elim

/-- In every run whose other clients keep the reliance, a client that follows the
contract is about to purge a revision it judged, and whatever is stored is safe. -/
theorem purge_pending {α : Type} {reliance : Reliance}
    {judged : RecordKey → Option Record → Revision → Prop} {programs : StoreProgram α → Prop}
    {allowed : Watched → Int → StoreReq → Prop}
    (keeps : ∀ w nowMs req, allowed w nowMs req → reliance.Keeps w nowMs req)
    (follows : ∀ p v, programs p → Wp (contract judged) (fun _ _ => True) v p)
    {c₀ c : WatchedPool α} (idle : c₀.clients () = none) (unread : c₀.world.read = none)
    (run : Pool.Reaches (Watched.rules programs allowed) c₀ c) {key : RecordKey}
    {expected : Revision} {next : (StoreReq.purge key expected).Ans → StoreProgram α}
    (pending : c.clients () = some (.ask (.purge key expected) next)) :
    ∃ found, judged key found expected ∧
      ∀ r, c.world.store.getRaw key = some r → reliance.safe key found r := by
  have logic : Pool.Logic (Watched.rules programs allowed) (contract judged)
      (fun _ _ _ => True)
      (fun c views => reliance.Holds c.world ∧ c.world.read = views ()) := by
    refine ⟨?_, ?_, ?_⟩
    · rintro c views ⟨⟩ p ⟨holds, same⟩ start
      exact ⟨c.world.read, follows p _ start, holds, by simp⟩
    · rintro c views ⟨⟩ req next answer w' ⟨holds, same⟩ at_req - guarded served
      have turned : ∃ view, (contract judged).turn (views ()) req answer view ∧
          reliance.Holds w' ∧ w'.read = view := by
        cases served with
        | read key =>
          refine ⟨_, rfl, ?_, rfl⟩
          rintro _ _ ⟨⟩ r stored
          exact stored ▸ reliance.own key r
        | call nowMs req other =>
          refine ⟨_, ?_, (holds.after (keeps_of_guard guarded)).settled req, rfl⟩
          cases req with
          | getRaw key => exact absurd rfl (other key)
          | purge key expected => rfl
          | _ => exact same
        | failed req e =>
          refine ⟨_, ?_, holds.settled req, rfl⟩
          cases req with
          | purge key expected => rfl
          | _ => exact same
        | lost nowMs req e =>
          refine ⟨_, ?_, (holds.after (keeps_of_guard guarded)).settled req, rfl⟩
          cases req with
          | purge key expected => rfl
          | _ => exact same
      obtain ⟨view, turn, holds', read⟩ := turned
      exact ⟨view, turn, fun _ => ⟨holds', by simp [read]⟩⟩
    · rintro c views w' ⟨holds, same⟩ ⟨nowMs, req, allows, rfl⟩
      exact ⟨holds.after (keeps _ _ _ allows), same⟩
  obtain ⟨views, ⟨holds, same⟩, covered⟩ := Pool.wp_invariant logic run
    ⟨fun _ => none, ⟨fun key found read => by simp [unread] at read, unread⟩,
      fun _ p at_p => by simp [idle] at at_p⟩
  obtain ⟨found, view, judges⟩ := (covered () _ pending).1
  exact ⟨found, judges, holds key found (same.trans view)⟩

end Reliance

end Gonzalo.Core
