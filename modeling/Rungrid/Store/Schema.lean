-- SUMMARY: The tables of the migration, the Go structures stored in them or read from them, and single-row writes.
import Rungrid.Base.Table
import Rungrid.Scheduler.Model

/-!
# Schema

The six tables of `migrations/001_initial.sql` as lists of rows in insertion
order, and the writes a statement can make: insert one row or replace one row.
The constraints of the migration are checked by the statements that insert rows.

Times are microseconds, the resolution of `timestamptz`.
-/

namespace Rungrid

abbrev Time := Int

/-- `make_interval(secs => n)`. -/
def seconds (n : Int) : Int := n * 1000000

/-! ## Enumerations -/

inductive WorkerState where
  | active
  | draining
deriving DecidableEq, Repr

inductive AttemptState where
  | leased
  | running
  | succeeded
  | failed
  | expired
  | cancelled
deriving DecidableEq, Repr

/-- `state IN ('LEASED','RUNNING')`. -/
def AttemptState.active : AttemptState → Bool
  | .leased | .running => true
  | _ => false

def JobState.active : JobState → Bool
  | .leased | .running => true
  | _ => false

inductive ArtifactKind where
  | checkpoint
  | output
  | log
deriving DecidableEq, Repr

def ArtifactKind.text : ArtifactKind → String
  | .checkpoint => "checkpoint"
  | .output => "output"
  | .log => "log"

def ArtifactKind.parse (s : String) : Option ArtifactKind :=
  if s = "checkpoint" then some .checkpoint
  else if s = "output" then some .output
  else if s = "log" then some .log
  else none

theorem ArtifactKind.text_of_parse {s : String} {k : ArtifactKind}
    (h : ArtifactKind.parse s = some k) : k.text = s := by
  unfold ArtifactKind.parse at h
  split at h
  · cases h; subst s; rfl
  split at h
  · cases h; subst s; rfl
  split at h
  · cases h; subst s; rfl
  · cases h

/-- The RPC methods. `unknown` is any other method name. -/
inductive Method where
  | registerWorker
  | leaseJob
  | startAttempt
  | heartbeat
  | reportProgress
  | completeAttempt
  | failAttempt
  | releaseWorker
  | unknown (name : String)
deriving DecidableEq, Repr

def Method.text : Method → String
  | .registerWorker => "RegisterWorker"
  | .leaseJob => "LeaseJob"
  | .startAttempt => "StartAttempt"
  | .heartbeat => "Heartbeat"
  | .reportProgress => "ReportProgress"
  | .completeAttempt => "CompleteAttempt"
  | .failAttempt => "FailAttempt"
  | .releaseWorker => "ReleaseWorker"
  | .unknown name => name

/-- The actions on a job. `unknown` is any other action name. -/
inductive Action where
  | cancel
  | retry
  | unknown (name : String)
deriving DecidableEq, Repr

def Action.text : Action → String
  | .cancel => "cancel"
  | .retry => "retry"
  | .unknown name => name

/-- `events.event_type`. An attempt RPC logs its method and an action its name. -/
inductive EventType where
  | submitted
  | leased
  | leaseExpired
  | method (m : Method)
  | action (a : Action)
deriving DecidableEq, Repr

/-! ## Structures of the store package -/

structure Artifact where
  objectKey : String
  contentType : String
  sizeBytes : Int
  checksum : String
  kind : String
deriving DecidableEq, Repr

structure Request where
  requestID : String
  workerID : String
  sessionID : String
  attemptID : String
  leaseToken : String
  hostname : String
  resources : Resources
  exitCode : Int
  reason : String
  logs : GoSlice String
  artifacts : GoSlice Artifact
deriving DecidableEq

/-- The columns `scanJob` reads. -/
structure JobRow where
  id : Uuid
  definition : Job
  state : JobState
  maxAttempts : Int
  createdAt : Time
  updatedAt : Time
deriving DecidableEq

structure Lease where
  job : JobRow
  attemptID : Uuid
  attemptNumber : Int
  leaseToken : Uuid
  leaseExpiresAt : Time
  serverTime : Time
  checkpoint : Option Artifact
deriving DecidableEq

/-- The values a mutation marshals as its response. A receipt stores one. -/
inductive Response where
  | registered
  | released
  | alive
  | idle
  | accepted
  | lease (l : Lease)
  | renewed (leaseExpiresAt serverTime : Time)
  | job (row : JobRow)
deriving DecidableEq

/-- The documents stored in `events.payload`. -/
inductive EventPayload where
  | empty
  | leased (requestID workerID : String) (attemptNumber : Int)
  | report (requestID workerID : String) (logs : GoSlice String) (reason : String) (exitCode : Int)
  | expired (reason : String)
  | action (requestID : String)
deriving DecidableEq

/-! ## Rows -/

structure JobRec where
  id : Uuid
  name : String
  idempotencyKey : String
  definition : Job
  state : JobState
  cpu : Int
  memoryMB : Int
  gpu : Int
  maxAttempts : Int
  timeoutSeconds : Int
  createdAt : Time
  updatedAt : Time
deriving DecidableEq

/-- `scanJob`. The `definition` column is `jsonb`; the value scanned from it is
kept in the row. -/
def JobRec.row (j : JobRec) : JobRow :=
  ⟨j.id, j.definition, j.state, j.maxAttempts, j.createdAt, j.updatedAt⟩

def JobRec.resources (j : JobRec) : Resources := ⟨j.cpu, j.memoryMB, j.gpu⟩

structure WorkerRec where
  id : String
  sessionID : String
  hostname : String
  cpu : Int
  memoryMB : Int
  gpu : Int
  state : WorkerState
  registeredAt : Time
  lastHeartbeatAt : Time
deriving DecidableEq

/-- The registered capacity. -/
def WorkerRec.capacity (w : WorkerRec) : Resources := ⟨w.cpu, w.memoryMB, w.gpu⟩

structure AttemptRec where
  id : Uuid
  jobID : Uuid
  attemptNumber : Int
  workerID : String
  state : AttemptState
  leaseToken : Uuid
  leaseExpiresAt : Time
  deadlineAt : Time
  createdAt : Time
  startedAt : Option Time
  finishedAt : Option Time
  exitCode : Option Int
  failureReason : Option String
deriving DecidableEq

structure ArtifactRec where
  id : Uuid
  jobID : Uuid
  attemptID : Uuid
  objectKey : String
  contentType : String
  sizeBytes : Int
  checksum : String
  kind : ArtifactKind
  createdAt : Time
deriving DecidableEq

/-- The columns both artifact queries read. -/
def ArtifactRec.artifact (a : ArtifactRec) : Artifact :=
  ⟨a.objectKey, a.contentType, a.sizeBytes, a.checksum, a.kind.text⟩

structure EventRec where
  id : Nat
  jobID : Uuid
  attemptID : Option Uuid
  eventType : EventType
  payload : EventPayload
  createdAt : Time
deriving DecidableEq

structure RequestRec where
  scope : String
  requestID : String
  payloadHash : String
  response : Option Response
  createdAt : Time
deriving DecidableEq

/-- The primary key of `requests`. -/
def RequestRec.key (r : RequestRec) : String × String := (r.scope, r.requestID)

/-! ## The database -/

structure Db where
  jobs : List JobRec
  workers : List WorkerRec
  attempts : List AttemptRec
  artifacts : List ArtifactRec
  events : List EventRec
  requests : List RequestRec
deriving DecidableEq

namespace Db

def empty : Db := ⟨[], [], [], [], [], []⟩

def job? (db : Db) (id : Uuid) : Option JobRec := Table.find JobRec.id id db.jobs

def jobByKey? (db : Db) (key : String) : Option JobRec := Table.find JobRec.idempotencyKey key db.jobs

def worker? (db : Db) (id : String) : Option WorkerRec := Table.find WorkerRec.id id db.workers

def attempt? (db : Db) (id : Uuid) : Option AttemptRec := Table.find AttemptRec.id id db.attempts

def artifact? (db : Db) (id : Uuid) : Option ArtifactRec := Table.find ArtifactRec.id id db.artifacts

def artifactByKey? (db : Db) (key : String) : Option ArtifactRec :=
  Table.find ArtifactRec.objectKey key db.artifacts

def request? (db : Db) (scope id : String) : Option RequestRec :=
  Table.find RequestRec.key (scope, id) db.requests

/-- The attempts of a job, in insertion order. -/
def attemptsOf (db : Db) (job : Uuid) : List AttemptRec :=
  db.attempts.filter (fun a => a.jobID = job)

def artifactsOf (db : Db) (job : Uuid) : List ArtifactRec :=
  db.artifacts.filter (fun a => a.jobID = job)

def eventsOf (db : Db) (job : Uuid) : List EventRec :=
  db.events.filter (fun e => e.jobID = job)

/-- The active attempts of a worker. -/
def activeOn (db : Db) (worker : String) : List AttemptRec :=
  db.attempts.filter (fun a => a.workerID = worker && a.state.active)

/-- The usage query: the resources of the jobs of the worker's active attempts. -/
def used (db : Db) (worker : String) : Resources :=
  Resources.sum ((db.activeOn worker).filterMap (fun a => (db.job? a.jobID).map JobRec.resources))

/-- The greatest event id handed out. -/
def lastEventID (db : Db) : Nat := (db.events.map EventRec.id).foldr max 0

end Db

/-! ## Writes -/

/-- What one statement does to one row. -/
inductive Write where
  | insertJob (r : JobRec)
  | putJob (r : JobRec)
  | insertWorker (r : WorkerRec)
  | putWorker (r : WorkerRec)
  | insertAttempt (r : AttemptRec)
  | putAttempt (r : AttemptRec)
  | insertArtifact (r : ArtifactRec)
  | insertEvent (r : EventRec)
  | insertRequest (r : RequestRec)
  | putRequest (r : RequestRec)

def Db.apply (db : Db) : Write → Db
  | .insertJob r => { db with jobs := db.jobs ++ [r] }
  | .putJob r => { db with jobs := Table.put JobRec.id r db.jobs }
  | .insertWorker r => { db with workers := db.workers ++ [r] }
  | .putWorker r => { db with workers := Table.put WorkerRec.id r db.workers }
  | .insertAttempt r => { db with attempts := db.attempts ++ [r] }
  | .putAttempt r => { db with attempts := Table.put AttemptRec.id r db.attempts }
  | .insertArtifact r => { db with artifacts := db.artifacts ++ [r] }
  | .insertEvent r => { db with events := db.events ++ [r] }
  | .insertRequest r => { db with requests := db.requests ++ [r] }
  | .putRequest r => { db with requests := Table.put RequestRec.key r db.requests }

def Db.applyAll (db : Db) (ws : List Write) : Db := ws.foldl Db.apply db

@[simp] theorem Db.applyAll_nil (db : Db) : db.applyAll [] = db := rfl

@[simp] theorem Db.applyAll_cons (db : Db) (w : Write) (ws : List Write) :
    db.applyAll (w :: ws) = (db.apply w).applyAll ws := rfl

theorem Db.applyAll_append (db : Db) (ws vs : List Write) :
    db.applyAll (ws ++ vs) = (db.applyAll ws).applyAll vs := List.foldl_append

/-! ## Payloads -/

def Artifact.toJson (a : Artifact) : Json :=
  .obj [("object_key", .str a.objectKey), ("content_type", .str a.contentType),
    ("size_bytes", .int a.sizeBytes), ("checksum", .str a.checksum), ("kind", .str a.kind)]

def Request.toJson (r : Request) : Json :=
  .obj [("request_id", .str r.requestID), ("worker_id", .str r.workerID),
    ("session_id", .str r.sessionID), ("attempt_id", .str r.attemptID),
    ("lease_token", .str r.leaseToken), ("hostname", .str r.hostname),
    ("resources", r.resources.toJson), ("exit_code", .int r.exitCode), ("reason", .str r.reason),
    ("logs", r.logs.toJson .str), ("artifacts", r.artifacts.toJson Artifact.toJson)]

theorem Artifact.toJson_injective : Function.Injective Artifact.toJson := by
  rintro ⟨k, c, n, d, q⟩ ⟨k', c', n', d', q'⟩ h
  simpa [toJson] using h

/-- The payload of a request determines the request. -/
theorem Request.toJson_injective : Function.Injective Request.toJson := by
  rintro ⟨i, w, s, a, t, h, r, e, q, l, x⟩ ⟨i', w', s', a', t', h', r', e', q', l', x'⟩ heq
  simp only [toJson, Json.obj.injEq, List.cons.injEq, Prod.mk.injEq, true_and, Json.str.injEq,
    Json.int.injEq, and_true] at heq
  obtain ⟨rfl, rfl, rfl, rfl, rfl, rfl, hr, rfl, rfl, hl, hx⟩ := heq
  obtain rfl := Resources.toJson_injective hr
  obtain rfl := GoSlice.toJson_injective (fun _ _ h => by simpa using h) hl
  obtain rfl := GoSlice.toJson_injective Artifact.toJson_injective hx
  rfl

end Rungrid
