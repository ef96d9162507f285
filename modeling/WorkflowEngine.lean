import WorkflowEngine.Schemes.Run
import WorkflowEngine.Runs.Order
import WorkflowEngine.Runs.TraceStream
import WorkflowEngine.Runs.Reference
import WorkflowEngine.Runs.Timing
import WorkflowEngine.Runs.TypedIo
import WorkflowEngine.Storage.Interchange
import WorkflowEngine.Storage.Transactions
import WorkflowEngine.Scheduler.Updates
import WorkflowEngine.Scheduler.Ticks
import WorkflowEngine.Service.Rejection
import WorkflowEngine.Service.Recording
import WorkflowEngine.Service.Admission
import WorkflowEngine.Service.Signatures
import WorkflowEngine.Service.Idempotency
import WorkflowEngine.Service.Pinning
import WorkflowEngine.Locks.Exclusion
import WorkflowEngine.Engine.Cycles
import WorkflowEngine.Engine.Backoff
import WorkflowEngine.Scheduler.Isolation
import WorkflowEngine.Service.SignatureHeaders
import WorkflowEngine.Service.Submissions
import WorkflowEngine.Service.Documents
import WorkflowEngine.Storage.DeadLetters
import WorkflowEngine.Service.CanonicalHash
import WorkflowEngine.Service.RateLimiting
import WorkflowEngine.Storage.Listing
import WorkflowEngine.Tasks.ParseText
import WorkflowEngine.Schemes.Layers
import WorkflowEngine.Dashboard.Dag
import WorkflowEngine.Dashboard.Layout
import WorkflowEngine.Dashboard.EdgeList
import WorkflowEngine.Service.Answers
import WorkflowEngine.Runs.Passes
import WorkflowEngine.Service.Reproduction
import WorkflowEngine.Runs.Edits
import WorkflowEngine.Service.Provenance
import WorkflowEngine.Service.Registries
import WorkflowEngine.Tasks.Chunks
import WorkflowEngine.Service.Workers
import WorkflowEngine.Tasks.Registry
