import Rungrid.Base.Table
import Rungrid.Base.Machine
import Rungrid.Base.Text
import Rungrid.Base.Json
import Rungrid.Scheduler.Uuid
import Rungrid.Scheduler.Model
import Rungrid.Store.Schema
import Rungrid.Store.Statement
import Rungrid.Store.Program
import Rungrid.Store.Transactions
import Rungrid.Store.System
import Rungrid.Lifecycle.Integrity
import Rungrid.Lifecycle.Effect
import Rungrid.Lifecycle.Soundness
import Rungrid.Lifecycle.Operations
import Rungrid.Lifecycle.View
import Rungrid.Lifecycle.History
import Rungrid.Lifecycle.Coherence
import Rungrid.Lifecycle.Capacity
import Rungrid.Lifecycle.Placement
import Rungrid.Lifecycle.Budget
import Rungrid.Lifecycle.Fencing
import Rungrid.Lifecycle.Receipts
import Rungrid.Lifecycle.Leases
import Rungrid.Lifecycle.Submission
import Rungrid.Lifecycle.Stability
import Rungrid.Isolation.World
import Rungrid.Isolation.Rely
import Rungrid.Isolation.Replay
import Rungrid.Isolation.Statements
import Rungrid.Isolation.Bodies
import Rungrid.Isolation.Locking
import Rungrid.Isolation.Ordering
import Rungrid.Lifecycle.Workers
import Rungrid.Lifecycle.Artifacts
import Rungrid.Lifecycle.Checkpoints
import Rungrid.Worker.Artifacts
import Rungrid.Lifecycle.Admission
import Rungrid.Base.Dict
import Rungrid.Scheduler.Decode
import Rungrid.Worker.Rpc
import Rungrid.Worker.Protocol
import Rungrid.Worker.Resume
import Rungrid.Worker.Single
import Rungrid.Lifecycle.Reports
import Rungrid.Worker.Timing
import Rungrid.Base.Utf8
import Rungrid.Worker.Logs
import Rungrid.Lifecycle.Records
import Rungrid.Lifecycle.Scheduling
import Rungrid.Lifecycle.Reaping
import Rungrid.Api.Rest
import Rungrid.Base.Parse
import Rungrid.Scheduler.Column
import Rungrid.Worker.Uploads
import Rungrid.Base.Paging
import Rungrid.Lifecycle.Scopes
import Rungrid.Api.Pages
import Rungrid.Base.Dumps
import Rungrid.Base.Waiting
import Rungrid.Api.Grpc
import Rungrid.Lifecycle.Answers
import Rungrid.Worker.Payloads
import Rungrid.Worker.Failures
import Rungrid.Isolation.Deadlock
import Rungrid.Isolation.Batches
import Rungrid.Isolation.Refinement
import Rungrid.Isolation.Numbering
import Rungrid.Worker.Progress
import Rungrid.Lifecycle.Work
import Rungrid.Sdk.Functions
import Rungrid.Api.Telemetry
import Rungrid.Worker.Run
import Rungrid.Api.Polling
import Rungrid.Base.Script
import Rungrid.Worker.Outputs
import Rungrid.Worker.Execute
import Rungrid.Worker.Rounds
