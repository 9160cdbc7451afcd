import Gonzalo.Lib.Program
import Gonzalo.Lib.Pool
import Gonzalo.Lib.Refinement
import Gonzalo.Core.Revision
import Gonzalo.Core.Record
import Gonzalo.Core.RecordJson
import Gonzalo.Lib.Newest
import Gonzalo.Core.Tombstone
import Gonzalo.Core.Merge
import Gonzalo.Core.MemStore
import Gonzalo.Core.ConsumerView
import Gonzalo.Core.Sync
import Gonzalo.Core.Fleet
import Gonzalo.Core.SyncSafety
import Gonzalo.Core.SyncConvergence
import Gonzalo.Core.RevisionIdentity
import Gonzalo.Core.Replicas
import Gonzalo.Core.Backend
import Gonzalo.Core.Undelete
import Gonzalo.Core.Gc
import Gonzalo.Mcp.RecordTool
import Gonzalo.Mcp.KeyHistory
import Gonzalo.Git.Store
import Gonzalo.Git.PullAgreement
import Gonzalo.Git.Atomicity
import Gonzalo.Core.Collect
import Gonzalo.Server.Auth
import Gonzalo.Server.Grpc
import Gonzalo.Server.Http
import Gonzalo.Server.Purge
import Gonzalo.Server.Service
import Gonzalo.Core.Paths
import Gonzalo.Core.Segments
import Gonzalo.S3.Bucket
import Gonzalo.S3.Names
import Gonzalo.Lib.FileSystem
import Gonzalo.Fs.Layout
import Gonzalo.Fs.Store
import Gonzalo.Fs.Specs
import Gonzalo.Fs.Separation
import Gonzalo.Fs.Listing
import Gonzalo.Fs.Runs
import Gonzalo.S3.Store
import Gonzalo.S3.Linearizability
import Gonzalo.S3.Listing
import Gonzalo.S3.Markers
import Gonzalo.Lib.Wire
import Gonzalo.Lib.Stateful
import Gonzalo.Core.ManifestJson
import Gonzalo.Vector.Shard
import Gonzalo.Vector.RecordIndex
import Gonzalo.Vector.Memory
import Gonzalo.Vector.Handle
import Gonzalo.Vector.Commit
import Gonzalo.Vector.Session
import Gonzalo.Vector.Linearizability
import Gonzalo.Lib.SharedRun
import Gonzalo.Core.StructuredMerge
import Gonzalo.Core.AppendOnly
import Gonzalo.Core.MergedBlobs
import Gonzalo.Core.SyncOutcome
import Gonzalo.Core.SyncSymmetry
import Gonzalo.Core.AncestorCap
import Gonzalo.Core.Editors
import Gonzalo.Core.StandingConflict
import Gonzalo.Core.QuietRuns
import Gonzalo.Core.AppendRuns
import Gonzalo.Core.Reset
import Gonzalo.Core.ResetRace
import Gonzalo.Core.Restorable
import Gonzalo.Core.Successors
import Gonzalo.Core.DeletionFields
import Gonzalo.Graph.Model
import Gonzalo.Lib.Walk
import Gonzalo.Graph.Store
import Gonzalo.Graph.Diff
import Gonzalo.Graph.Resolve
import Gonzalo.Graph.Impact
import Gonzalo.Graph.Sqlite
import Gonzalo.Graph.SqliteAgreement
import Gonzalo.Tickets.Key
import Gonzalo.Tickets.Ingest
import Gonzalo.Domain.Link
import Gonzalo.Domain.Redemption
import Gonzalo.Domain.FleetKeys
import Gonzalo.Knowledge.Chunk
import Gonzalo.Knowledge.Store
import Gonzalo.Lib.KeySort
import Gonzalo.Vector.ShardCodec
import Gonzalo.Vector.Hnsw
import Gonzalo.Vector.HnswAgreement
import Gonzalo.Vector.Verification
import Gonzalo.Lib.TwoRuns
import Gonzalo.Git.Refinement
import Gonzalo.Server.Confinement
import Gonzalo.Index.Drivers
import Gonzalo.Index.FullWalk
import Gonzalo.Index.Progress
import Gonzalo.Index.Runs
import Gonzalo.Lib.Relay
import Gonzalo.Server.Client
import Gonzalo.Server.Relayed
import Gonzalo.Fs.Calls
import Gonzalo.Fs.Instants
import Gonzalo.Fs.Mirror
import Gonzalo.Fs.Linearizability
