import Gonzalo.Core.ManifestJson
import Gonzalo.Server.Purge
import Gonzalo.Tickets.Ingest

/-!
# The service behind the transports

`gonzalo-server/src/service.rs` with what it calls: `ingest` of `gonzalo-ticket`, as
modelled there, and `assemble` of `gonzalo-graph/src/assembly.rs`. The service forwards to
one value that is both a store and a blob store. Code graphs, what a ticket source answers
and the persistent graphs under `graph_root` are parameters.
-/

set_option autoImplicit false

namespace Gonzalo.Server
open Gonzalo.Core Gonzalo.Lib
open Gonzalo.Tickets (IngestSummary Lowercase Page Settles SourceError Ticket TicketSerde ingest)

/-- The calls of a store among those of a backend. -/
def storePart : Interface.Part storeInterface backendInterface := ⟨.store, fun _ answer => answer⟩

/-! ## Code graphs -/

/-- The graph queries the transports serve. -/
inductive GraphKind where
  | definitions | referencesTo | callersOf | callees | impact
  deriving DecidableEq, Repr

/-- Selects a view and the name a query is about. -/
structure GraphQuery where
  repo : String
  view : String
  name : String
  deriving DecidableEq, Repr

/-- What the service uses of `gonzalo-graph` and `gonzalo-graph-sqlite`. -/
class CodeGraph where
  Graph : Type
  Slice : Type
  Answer : Type
  empty : Graph
  insert : Graph → String → Slice → Graph
  fromSliceBytes : Bytes → Except String Slice
  answer : GraphKind → String → Graph → Answer

/-- The persistent graphs under `graph_root`: `none` where a view has no database, an
error where the database does not open. -/
abbrev PersistentGraphs [CodeGraph] : Type :=
  String → String → Option (Except CoreError CodeGraph.Graph)

/-! ## Tickets -/

/-- What a ticket holds besides its key, given as what `serde_json` makes of the ticket. -/
abbrev Spelled : Type := Except String Bytes

instance instTicketSerdeSpelled : TicketSerde Spelled := ⟨Ticket.fields⟩

/-- What a source answers while it is ingested, up to its last page or its error. -/
structure Board where
  answers : List (Except SourceError (Page Spelled))
  settles : Settles answers none

/-- `TicketSyncError`. -/
inductive TicketSyncError where
  | badRequest (message : String)
  | internal (message : String)
  deriving DecidableEq, Repr

/-- A connection, with what `build_source` makes of it. -/
structure Connection where
  name : String
  source : Except TicketSyncError Board

/-- A program of the service over its backend, whatever its errors. -/
abbrev ServiceProgram (ε α : Type) : Type := Program backendInterface ε α

/-! ## The service -/

namespace Service

def get (key : RecordKey) : BackendProgram (Option Record) :=
  callBackend (.store (.get key)) >>= .ofExcept

def put (record : Record) (expected : Option Revision) : BackendProgram PutResult :=
  callBackend (.store (.put record expected)) >>= .ofExcept

def list (keys : KeyPrefix) : BackendProgram (List RecordKey) :=
  callBackend (.store (.list keys)) >>= .ofExcept

def deleteAs (key : RecordKey) (expected : Option Revision) (author : Option Identity) :
    BackendProgram DeleteResult :=
  callBackend (.store (.deleteAs key expected author)) >>= .ofExcept

def listRaw (keys : KeyPrefix) : BackendProgram (List RecordKey) :=
  callBackend (.store (.listRaw keys)) >>= .ofExcept

def putBlob (content : Bytes) : BackendProgram ContentHash :=
  callBackend (.putBlob content) >>= .ofExcept

def getBlob (hash : ContentHash) : BackendProgram (Option Bytes) :=
  callBackend (.getBlob hash) >>= .ofExcept

/-- `Service::purge`, as a program of the backend. -/
def purge (key : RecordKey) (expected : Revision) : BackendProgram DeleteResult :=
  (Server.purge key expected).lift storePart

/-- `Service::ready`: whether the store answers a point lookup. -/
def ready {ε : Type} : ServiceProgram ε Bool := do
  match ← (get ⟨"_gonzalo", "_health", "_probe"⟩).attempt with
  | .ok _ => return true
  | .error _ => return false

/-- `Service::ticket_sync`: an ingest that fails is an internal error. The board settles, so
there is a summary. -/
def ticketSync [Blake3] [Lowercase] [DebugFmt] (conn : Connection) (author : String) :
    ServiceProgram TicketSyncError IngestSummary :=
  match conn.source with
  | .error e => .fail e
  | .ok board => do
    let ingested := (ingest ⟨author, some conn.name, board.answers⟩).lift storePart
    let summary ← ingested.mapError fun e => .internal e.display
    return summary.getD {}

section Graphs

/-- `Manifest::key`. -/
def manifestKey (repo view : String) : RecordKey := ⟨repo, "graph-manifest", view⟩

variable [Serde] [CodeGraph]

/-- `Service::load_manifest`. -/
def loadManifest (repo view : String) : BackendProgram Manifest := do
  match ← get (manifestKey repo view) with
  | some record => .ofExcept (Manifest.fromBody record.body)
  | none => .fail (.notFound (manifestKey repo view))

/-- `assemble`: a slice that is missing is skipped, one that does not parse is an error. -/
def assemble (manifest : Manifest) : BackendProgram CodeGraph.Graph :=
  manifest.entries.toList.foldlM
    (fun graph entry => do
      match ← getBlob entry.2 with
      | none => return graph
      | some bytes =>
        let slice ← .ofExcept ((CodeGraph.fromSliceBytes bytes).mapError .serde)
        return CodeGraph.insert graph entry.1 slice)
    CodeGraph.empty

/-- `Service::view`: the persistent graph where there is one, else the slices. -/
def view (graphs : PersistentGraphs) (repo viewId : String) : BackendProgram CodeGraph.Graph :=
  match graphs repo viewId with
  | some opened => .ofExcept opened
  | none => do assemble (← loadManifest repo viewId)

/-- `Service::graph_definitions`, `graph_references_to`, `graph_callers_of`,
`graph_callees` and `graph_impact_names`. -/
def graph (graphs : PersistentGraphs) (kind : GraphKind) (q : GraphQuery) :
    BackendProgram CodeGraph.Answer :=
  return CodeGraph.answer kind q.name (← view graphs q.repo q.view)

end Graphs

end Service

end Gonzalo.Server
