import Ethertest.Base.Store
import Ethertest.Base.Except
import Ethertest.Base.Ancestry
import Ethertest.Types
import Ethertest.Base.Bytes
import Ethertest.Config
import Ethertest.Requests.Codec
import Ethertest.Requests.Queue
import Ethertest.Records
import Ethertest.Database
import Ethertest.Events
import Ethertest.Geth
import Ethertest.Recovery
import Ethertest.Node
import Ethertest.Projection
import Ethertest.Requests.Assembly
import Ethertest.Builder
import Ethertest.Records
import Ethertest.Finality
import Ethertest.Commands.Basic
import Ethertest.Commands.Mine
import Ethertest.Commands.Control
import Ethertest.Commands.Branch
import Ethertest.Commands.Points
import Ethertest.Commands.Pool
import Ethertest.Metadata
import Ethertest.Run
import Ethertest.Requests.Fifo
import Ethertest.Requests.RoundTrip
import Ethertest.Requests.Prepare
import Ethertest.Lawful
import Ethertest.Execution
import Ethertest.Chain.Basic
import Ethertest.Chain.Tree
import Ethertest.Chain.Timeline
import Ethertest.Chain.Requests
import Ethertest.Chain.Safety
import Ethertest.Chain.Replay
import Ethertest.Chain.Invariant
import Ethertest.Refinement.Abstraction
import Ethertest.Refinement.Commits
import Ethertest.Refinement.Plans
import Ethertest.Refinement.Moves
import Ethertest.Refinement.Extensions
import Ethertest.Refinement.Switches
import Ethertest.Refinement.Simulation
import Ethertest.Refinement.Operations
import Ethertest.Refinement.Start
import Ethertest.Base.Tokens
import Ethertest.Reference
import Ethertest.Guarantees.Controls
import Ethertest.Guarantees.Timeline
import Ethertest.Guarantees.Taint
import Ethertest.Base.Window
import Ethertest.Log.Window
import Ethertest.Log.Readers
import Ethertest.Forks
import Ethertest.Log.Stream
import Ethertest.Log.Node
import Ethertest.Guarantees.Replay
import Ethertest.Refinement.Mirror
import Ethertest.Refinement.Reload
import Ethertest.Guarantees.Restart
import Ethertest.Guarantees.WriteOnce
import Ethertest.Guarantees.SlotIndex
import Ethertest.Refinement.Canonical
import Ethertest.ControlMetadata
import Ethertest.Guarantees.Branches
import Ethertest.Chain.Return
import Ethertest.Guarantees.Return
import Ethertest.Base.Latest
import Ethertest.Chain.Observer
import Ethertest.Refinement.Observer
import Ethertest.Guarantees.Finality
import Ethertest.Guarantees.Announcements
import Ethertest.Guarantees.Switching
import Ethertest.Requests.Accepted
import Ethertest.Guarantees.Assembly
import Ethertest.Base.Interrupt
import Ethertest.Guarantees.Recovery
import Ethertest.Guarantees.Crash
import Ethertest.Refinement.History
import Ethertest.Base.Merge
import Ethertest.Pool.Selection
import Ethertest.Guarantees.Skipping
import Ethertest.Refinement.Acts
import Ethertest.Base.Nested
import Ethertest.Pool.Tables
import Ethertest.Guarantees.Pool
import Ethertest.Commands.InPlace
import Ethertest.Guarantees.Rollback
import Ethertest.Chain.Withdrawals
import Ethertest.Guarantees.Withdrawals
import Ethertest.Commands.ControlRecord
import Ethertest.Control.Accounts
import Ethertest.Control.Expansion
import Ethertest.Refinement.Recorded
import Ethertest.Refinement.Projections
import Ethertest.Guarantees.ControlRecords
import Ethertest.Control.Reference
import Ethertest.Archive.Database
import Ethertest.Base.Keyed
import Ethertest.Guarantees.Archive
import Ethertest.Blob
import Ethertest.Simulate.Chain
import Ethertest.Simulate.Tracer
import Ethertest.Base.Bisect
import Ethertest.Calls.Estimate
import Ethertest.Base.Merkle
import Ethertest.Consensus.Merkle
import Ethertest.Consensus.Inclusion
import Ethertest.Base.Json
import Ethertest.Ipc.Framing
import Ethertest.Filters.Logs
import Ethertest.Filters.Range
import Ethertest.Base.Heap
import Ethertest.Control.InPlace
import Ethertest.Guarantees.Replacement
import Ethertest.Guarantees.Pending
import Ethertest.Refinement.Pending
import Ethertest.Guarantees.Automine
import Ethertest.Pool.Entries
import Ethertest.Guarantees.Writes
import Ethertest.Base.Divergence
import Ethertest.Candidate.ReadThrough
import Ethertest.Guarantees.Divergence
import Ethertest.Filters.Installed
import Ethertest.Refinement.Deliveries
import Ethertest.Filters.Delivered
import Ethertest.Guarantees.Filters
import Ethertest.Archive.State
import Ethertest.Refinement.Archived
import Ethertest.Archive.Accepted
import Ethertest.Guarantees.Dump
import Ethertest.Base.Controller
import Ethertest.Guarantees.Controller
import Ethertest.Refinement.Roots
import Ethertest.Restart.Open
import Ethertest.Restart.Standing
import Ethertest.Restart.Exact
import Ethertest.Guarantees.Lives
