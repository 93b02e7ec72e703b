import Redo.State.Files
import Redo.State.MarkSweep
import Redo.State.Nodes
import Redo.Library.Relations
import Redo.Dirtiness.Walk
import Redo.Dirtiness.Planner
import Redo.Dirtiness.UpToDate
import Redo.Dirtiness.Verdict
import Redo.Dirtiness.Simulation
import Redo.Dirtiness.Specification
import Redo.Dirtiness.Agreement
import Redo.Dirtiness.Termination
import Redo.Completion.Calls
import Redo.Completion.Builds
import Redo.Completion.Failure
import Redo.Completion.Twins
import Redo.Completion.Output
import Redo.Dirtiness.Preservation
import Redo.Override.Site
import Redo.Override.Clobber
import Redo.Library.Transactions
import Redo.Concurrent.Statements
import Redo.Concurrent.LostUpdate
import Redo.Dirtiness.Overdue
import Redo.Completion.Visible
import Redo.Library.LexicalPaths
import Redo.Processes.Cycles
import Redo.Processes.Pools
import Redo.Scheduler.Ifchange
import Redo.Scheduler.Locks
import Redo.Scheduler.Places
import Redo.Scheduler.Duplicates
import Redo.Cache.Missing
import Redo.Processes.Tokens
import Redo.Processes.Ledger
import Redo.Processes.LockObjects
import Redo.Completion.Commit
import Redo.Dirtiness.Fresh
import Redo.Dirtiness.Unsettled
import Redo.Runs.Events
import Redo.Runs.Marks
import Redo.Runs.Tables
import Redo.Runs.Waiting
import Redo.Runs.Attempts
import Redo.Runs.Reachable
import Redo.Runs.Invariant
import Redo.Runs.Always
import Redo.Runs.GeneratedRules
import Redo.Library.Threads
import Redo.Remote.Json
import Redo.Remote.Actions
import Redo.Remote.Push
import Redo.Library.PrefixCode
import Redo.Remote.Wrapper
import Redo.Cache.Keys
import Redo.Cache.ReadTrace
import Redo.Cache.Descriptions
import Redo.Paths.Names
import Redo.Paths.Candidates
import Redo.Paths.Keys
import Redo.Paths.Normalizers
import Redo.Paths.ByteKeys
import Redo.Cache.Undeclared
import Redo.Cache.Domains
import Redo.Remote.Declarations
import Redo.Library.Scripts
import Redo.Library.FileTree
import Redo.Library.LinklessWays
import Redo.Library.Interference
import Redo.Remote.Storage
import Redo.Remote.Exec
import Redo.Remote.Confinement
import Redo.Remote.Blobs
import Redo.Library.Utf8
import Redo.Remote.Downloads
import Redo.Cache.Metadata
import Redo.Cache.Local
import Redo.Cache.Entries
import Redo.Trace.Launch
import Redo.Runs.HonestRules
import Redo.Logs.Endless
import Redo.Logs.Lossless
import Redo.Logs.MetaLines
import Redo.Browse.Subgraph
import Redo.Remote.Authorization
import Redo.Remote.RoundTrips
import Redo.Processes.Directives
import Redo.Logs.Dependencies
import Redo.Logs.Announcements
import Redo.Logs.Progress
import Redo.Cache.Eviction
import Redo.Paths.BaseSelection
import Redo.Scheduler.Shuffle
import Redo.Runs.Hits
import Redo.Runs.Commands
import Redo.Runs.Once
import Redo.Runs.Checksums
import Redo.Runs.Lasting
import Redo.Processes.Environment
import Redo.Processes.Nesting
import Redo.Processes.Recording
import Redo.Processes.Sharing
import Redo.Library.Flooding
import Redo.Paths.Stripping
import Redo.Plan.Scope
import Redo.Plan.Counts
import Redo.Plan.Steps
import Redo.Paths.Listed
import Redo.Dirtiness.Listings
import Redo.Scheduler.Forced
import Redo.Processes.Scrubbing
import Redo.Library.JsonText
import Redo.Library.PercentCode
import Redo.Browse.Pages
