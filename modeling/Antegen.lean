import Antegen.Borsh
import Antegen.Base64
import Antegen.Transition
import Antegen.SortedRank
import Antegen.Calendar
import Antegen.SortedSet
import Antegen.Combinators
import Antegen.Basic
import Antegen.Instruction
import Antegen.CompileRoundTrip
import Antegen.Ledger
import Antegen.FiberState
import Antegen.FiberProgram
import Antegen.FiberIsolation
import Antegen.FiberRoundTrip
import Antegen.Rounding
import Antegen.Payments
import Antegen.FeeConfig
import Antegen.Signals
import Antegen.ThreadExec
import Antegen.Settlement
import Antegen.ExecutorSafety
import Antegen.ThreadInstructions
import Antegen.ThreadRuns
import Antegen.CursorRuns
import Antegen.DesignatedFiber
import Antegen.OneShot
import Antegen.SelfCpi
import Antegen.FiberTracking
import Antegen.Staging
import Antegen.Scheduling
import Antegen.TriggerChange
import Antegen.AccountWatch
import Antegen.Readiness
import Antegen.FiberFormat
import Antegen.CronFields
import Antegen.CronParsing
import Antegen.CronGrammar
import Antegen.CronDenotation
import Antegen.CronSearch
import Antegen.CronLeast
import Antegen.CronExact
import Antegen.MissedMoments
import Antegen.LastOccurrence
import Antegen.ThreadClose
import Antegen.CompleteClose
import Antegen.Executor
import Antegen.FinishedBatches
import Antegen.ChainResume
import Antegen.AccountCache
import Antegen.Backfill
import Antegen.Processor
import Antegen.ProcessorQueue
import Antegen.PriorityQueue
import Antegen.StagingActor
import Antegen.FetchPaths
import Antegen.ThreadUpdates
import Antegen.DueThreads
import Antegen.ClientSystem
import Antegen.KeptThreads
import Antegen.InFlight
import Antegen.RpcPool
import Antegen.LoadBalancer
import Antegen.LostExecutions
import Antegen.Submission
import Antegen.TrackedThreads
import Antegen.ReadySelection
import Antegen.MixedOrder
import Antegen.CliVersions
import Antegen.PaymentOverflow
import Antegen.Jitter
import Antegen.SwapEffect
import Antegen.SuppliedAccounts
import Antegen.Enumeration
import Antegen.CronSearchBack
import Antegen.CronGreatest
import Antegen.CronExactBack
import Antegen.Activity
import Antegen.Authority
import Antegen.CompiledSize
import Antegen.ThreadName
import Antegen.ThreadSpace
import Antegen.Worker
import Antegen.WorkerChain
import Antegen.Transport
import Antegen.Subscription
import Antegen.Cursor
import Antegen.CronCursor
import Antegen.Interrupted
import Antegen.VersionStore
import Antegen.VersionChanges
import Antegen.VersionOperations
import Antegen.ToolCommands
import Antegen.NodeCommands
import Antegen.VersionRuns
