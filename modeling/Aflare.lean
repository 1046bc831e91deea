import Aflare.Agentx.Breaker
import Aflare.Go.Strings
import Aflare.Go.Utf8
import Aflare.Go.JsonText
import Aflare.Go.Json
import Aflare.Go.Encoding
import Aflare.Go.Binary
import Aflare.Lib.Frames
import Aflare.Workflow.WalRecord
import Aflare.Workflow.Engine
import Aflare.Workflow.State
import Aflare.Workflow.Wal
import Aflare.Lib.Simulation
import Aflare.Workflow.WalRecovery
import Aflare.Workflow.WalManager
import Aflare.Go.Text
import Aflare.Lib.DepthFirst
import Aflare.Workflow.DepGraph
import Aflare.Workflow.Expression
import Aflare.Workflow.Recovery
import Aflare.Workflow.Dag
import Aflare.Workflow.DagScheduling
import Aflare.Workflow.Checkpoint
import Aflare.Workflow.DagCheckpoint
import Aflare.Lib.Dataflow
import Aflare.Workflow.Meaning
import Aflare.Workflow.DagResume
import Aflare.Workflow.Sequential
import Aflare.Workflow.SequentialResume
import Aflare.Policy.Engine
import Aflare.Workflow.PolicyExecutor
import Aflare.Go.Clock
import Aflare.Go.Crypto
import Aflare.Workflow.Idempotency
import Aflare.Workflow.IdempotentTrigger
import Aflare.Workflow.Shutdown
import Aflare.Go.JsonLines
import Aflare.Lib.HashChain
import Aflare.History.AuditLog
import Aflare.History.AuditAppend
import Aflare.History.AuditVerify
import Aflare.Go.JsonEqual
import Aflare.History.AuditBundle
import Aflare.History.AuditExport
import Aflare.Go.Regexp
import Aflare.Workflow.LegacyExpression
import Aflare.Workflow.VectorParams
import Aflare.Lib.Layers
import Aflare.Workflow.DagConfluence
import Aflare.Workflow.Saga
import Aflare.Workflow.TopoBatches
import Aflare.Workflow.ChainAgreement
import Aflare.Workflow.Limiter
import Aflare.Go.JsonSize
import Aflare.Workflow.Parallel
import Aflare.Workflow.WalFaults
import Aflare.Workflow.CheckpointEnd
import Aflare.Workflow.CheckpointFile
import Aflare.Workflow.NetworkPolicy
import Aflare.Workflow.LockFile
import Aflare.Workflow.StoreEquivalence
import Aflare.Lib.WorkPool
import Aflare.Nodes.LLMRouter
import Aflare.Nodes.QuotaSaver
import Aflare.Workflow.Iteration
import Aflare.Go.Calendar
import Aflare.Lib.UnitSearch
import Aflare.Scheduler.Cron
import Aflare.Scheduler.Tasks
import Aflare.Go.Filepath
import Aflare.Go.Net
import Aflare.Mcp.Client
import Aflare.Nodes.LLMDedup
import Aflare.Nodes.SafeClient
import Aflare.Nodes.SafePath
import Aflare.Webhook.Replay
import Aflare.Taskqueue.Worker
import Aflare.Nodes.Condition
import Aflare.Memory.FSStore
import Aflare.Memory.Manager
import Aflare.Memory.PersistentStore
import Aflare.Watermark.Source
import Aflare.Watermark.Text
import Aflare.Secrets.Store
import Aflare.Workflow.Backoff
import Aflare.Webhook.RateLimit
import Aflare.Nodes.AgentCompact
import Aflare.Nodes.Execute
import Aflare.Nodes.HalfOpen
import Aflare.Nodes.ParetoOrder
import Aflare.Nodes.StructuredOutput
import Aflare.Nodes.ToolStream
