-- SUMMARY: The SQL statements of the store, what each reads and writes, and the constraints it can violate.
import Rungrid.Store.Schema
import Mathlib.Data.List.Sort

/-!
# Statements

One constructor of `Stmt` for every SQL statement of the store, under the name of
what it does, with the parameters the Go code binds. `newID` is the one effect
between statements, the call of `scheduler.ID`.

`Stmt.eval` gives a statement its meaning on two databases. Under READ COMMITTED a
statement reads the `snap` that was committed when it started; a row it locks is
read again from `cur`, the state when the lock was granted, and a constraint is
checked against `cur`. A transaction that runs alone sees the same database in
both places.
-/

namespace Rungrid

/-! ## Errors -/

/-- Why PostgreSQL or the driver rejects a statement. -/
inductive DbError where
  | invalidText
  | outOfRange
  | check
  | unique
  | foreignKey
  | noRows
deriving DecidableEq, Repr

/-- The errors of the store. `detail` is the text wrapped around a sentinel. -/
inductive Err where
  | conflict (detail : Option String)
  | notFound
  | invalid (detail : Option String)
  | budget
  | db (e : DbError)
deriving DecidableEq, Repr

/-! ## What a statement takes from outside the database -/

/-- The readings of `clock_timestamp()` a statement makes, in order, the bytes
`rand.Read` fills in, the number of sequence values other transactions have used
up, and the job rows locked by other transactions. -/
structure Oracle where
  clock : Nat → Time
  rand : BitVec 128
  gap : Nat
  locked : Uuid → Bool

/-! ## Column types -/

/-- The range of an `integer` column. -/
def Int4 (n : Int) : Prop := -2147483648 ≤ n ∧ n ≤ 2147483647

instance : DecidablePred Int4 := fun _ => inferInstanceAs (Decidable (_ ∧ _))

def EventPayload.hasNul : EventPayload → Bool
  | .empty => false
  | .leased rid wid _ => Text.hasNul rid || Text.hasNul wid
  | .report rid wid logs reason _ =>
      Text.hasNul rid || Text.hasNul wid || logs.elems.any Text.hasNul || Text.hasNul reason
  | .expired reason => Text.hasNul reason
  | .action rid => Text.hasNul rid

/-! ## Statements and results -/

inductive Stmt where
  | newID
  | lockKey (key : String)
  | insertJob (id : Uuid) (j : Job)
  | jobByKey (key : String)
  | insertEvent (job : Uuid) (attempt : Option Uuid) (kind : EventType) (payload : EventPayload)
  | insertRequest (scope id hash : String)
  | lockRequest (scope id : String)
  | setResponse (scope id : String) (response : Response)
  | lockJob (id : Uuid)
  | jobByID (id : Uuid)
  | cancelAttempts (job : Uuid)
  | setJob (id : Uuid) (state : JobState) (maxAttempts : Int)
  | setJobState (id : Uuid) (state : JobState)
  | insertWorker (r : Request)
  | lockWorker (id : String)
  | touchWorker (id : String)
  | drainWorker (id : String)
  | sumUsed (worker : String)
  | pickJob (limit : Resources)
  | insertAttempt (id job : Uuid) (worker : String) (token : Uuid)
      (leaseSeconds timeoutSeconds : Int)
  | checkpoint (job : Uuid)
  | attemptJob (id : Uuid)
  | lockAttempt (id : Uuid)
  | renewAttempt (id : Uuid) (leaseSeconds : Int)
  | startAttempt (id : Uuid)
  | artifactByKey (key : String)
  | insertArtifact (id job attempt : Uuid) (a : Artifact)
  | finishAttempt (id : Uuid) (state : AttemptState) (exitCode : Int) (reason : String)
  | expiredJobs
  | expiredAttempt (job : Uuid)
  | expireAttempt (id : Uuid)

/-- The columns the fence reads of an attempt, with the validity of its lease. -/
structure AttemptCheck where
  state : AttemptState
  token : Uuid
  worker : String
  number : Int
  valid : Bool
deriving DecidableEq

/-- What the Go code scans from the statement. -/
@[reducible] def Stmt.Result : Stmt → Type
  | .newID => Uuid
  | .insertJob _ _ => Bool
  | .jobByKey _ => Option JobRow
  | .lockRequest _ _ => Option (String × Option Response)
  | .lockJob _ => Option JobRow
  | .jobByID _ => Option JobRow
  | .lockWorker _ => Option WorkerRec
  | .sumUsed _ => Resources
  | .pickJob _ => Option JobRow
  | .insertAttempt .. => Int × Time × Time
  | .checkpoint _ => Option Artifact
  | .attemptJob _ => Option Uuid
  | .lockAttempt _ => Option AttemptCheck
  | .renewAttempt _ _ => Option (Time × Time)
  | .artifactByKey _ => Option Artifact
  | .expiredJobs => List Uuid
  | .expiredAttempt _ => Option (Uuid × Int × Int)
  | _ => Unit

/-! ## Queries -/

/-- A locked row is the current version of a row the snapshot has. -/
def reread {ρ : Type} (snap cur : Option ρ) : Option ρ := snap.bind (fun _ => cur)

@[simp] theorem reread_self {ρ : Type} (r : Option ρ) : reread r r = r := by
  cases r <;> rfl

/-- The condition of the placement query on a row of `jobs`. -/
def JobRec.placeable (j : JobRec) (limit : Resources) : Bool :=
  j.state = .queued && j.resources.Le limit

/-- `ORDER BY created_at,id`. -/
def JobRec.before (a b : JobRec) : Prop :=
  a.createdAt < b.createdAt ∨ a.createdAt = b.createdAt ∧ a.id.le b.id

instance : DecidableRel JobRec.before := fun _ _ => inferInstanceAs (Decidable (_ ∨ _))

/-- The rows the placement query visits, in order. -/
def Db.placement (db : Db) (limit : Resources) : List JobRec :=
  (db.jobs.filter (·.placeable limit)).insertionSort JobRec.before

/-- The lease of an active attempt has run out at `now`: the reaper's condition. -/
def AttemptRec.expiredAt (a : AttemptRec) (now : Time) : Bool :=
  a.state.active && a.leaseExpiresAt ≤ now

/-- The validity the fence computes from two readings of the clock. -/
def AttemptRec.validAt (a : AttemptRec) (t₀ t₁ : Time) : Bool :=
  t₀ < a.leaseExpiresAt && t₁ < a.deadlineAt

/-- The condition of the reaper's candidate query on a row of `jobs`. -/
def Db.reapable (db : Db) (j : JobRec) (now : Time) : Bool :=
  j.state.active && db.attempts.any (fun a => a.jobID = j.id && a.expiredAt now)

/-- The candidates of the reaper in id order. The clock is read once for each row. -/
def Db.reapOrder (db : Db) (clock : Nat → Time) : List JobRec :=
  ((db.jobs.zipIdx.filter (fun p => db.reapable p.1 (clock p.2))).map Prod.fst).insertionSort
    (fun a b => a.id.le b.id)

/-- The reaper handles at most this many jobs in one transaction. -/
def reapLimit : Nat := 100

/-- `ORDER BY created_at DESC,id DESC`. -/
def ArtifactRec.newer (a b : ArtifactRec) : Prop :=
  b.createdAt < a.createdAt ∨ a.createdAt = b.createdAt ∧ b.id.le a.id

instance : DecidableRel ArtifactRec.newer := fun _ _ => inferInstanceAs (Decidable (_ ∨ _))

/-- The newest committed checkpoint of a job. -/
def Db.newestCheckpoint (db : Db) (job : Uuid) : Option ArtifactRec :=
  (((db.artifactsOf job).filter (·.kind = .checkpoint)).insertionSort ArtifactRec.newer).head?

/-- `coalesce(max(attempt_number),0)+1`. -/
def Db.nextNumber (db : Db) (job : Uuid) : Int :=
  ((db.attemptsOf job).map AttemptRec.attemptNumber).foldr max 0 + 1

/-- The unique indexes of `attempts` reject a new active row of the job. -/
def Db.attemptTaken (db : Db) (id job : Uuid) (number : Int) : Bool :=
  db.attempts.any (fun a => a.id = id || (a.jobID = job && (a.attemptNumber = number || a.state.active)))

/-! ## New rows -/

def Job.newRow (j : Job) (id : Uuid) (o : Oracle) : JobRec where
  id := id
  name := j.name
  idempotencyKey := j.idempotencyKey
  definition := j
  state := .queued
  cpu := j.resources.cpu
  memoryMB := j.resources.memoryMB
  gpu := j.resources.gpu
  maxAttempts := j.maxAttempts
  timeoutSeconds := j.timeoutSeconds
  createdAt := o.clock 0
  updatedAt := o.clock 1

def Request.newWorker (r : Request) (o : Oracle) : WorkerRec where
  id := r.workerID
  sessionID := r.sessionID
  hostname := r.hostname
  cpu := r.resources.cpu
  memoryMB := r.resources.memoryMB
  gpu := r.resources.gpu
  state := .active
  registeredAt := o.clock 0
  lastHeartbeatAt := o.clock 1

/-- The expressions of the VALUES list are evaluated in order, so the deadline is
counted from a reading of the clock that is not earlier than the lease's. -/
def newAttempt (id job : Uuid) (number : Int) (worker : String) (token : Uuid)
    (leaseSeconds timeoutSeconds : Int) (o : Oracle) : AttemptRec where
  id := id
  jobID := job
  attemptNumber := number
  workerID := worker
  state := .leased
  leaseToken := token
  leaseExpiresAt := o.clock 0 + seconds (min leaseSeconds timeoutSeconds)
  deadlineAt := o.clock 1 + seconds timeoutSeconds
  createdAt := o.clock 2
  startedAt := none
  finishedAt := none
  exitCode := none
  failureReason := none

def Artifact.newRow (a : Artifact) (id job attempt : Uuid) (kind : ArtifactKind) (o : Oracle) :
    ArtifactRec :=
  ⟨id, job, attempt, a.objectKey, a.contentType, a.sizeBytes, a.checksum, kind, o.clock 0⟩

/-- The row an event insert adds. The sequence hands out a value beyond all the
values it has handed out before. -/
def Db.newEvent (db : Db) (o : Oracle) (job : Uuid) (attempt : Option Uuid) (kind : EventType)
    (payload : EventPayload) : EventRec :=
  ⟨db.lastEventID + 1 + o.gap, job, attempt, kind, payload, o.clock 0⟩

/-! ## Updated rows -/

namespace AttemptRec

def renew (a : AttemptRec) (leaseSeconds : Int) (now : Time) : AttemptRec :=
  { a with leaseExpiresAt := min a.deadlineAt (now + seconds leaseSeconds) }

def start (a : AttemptRec) (now : Time) : AttemptRec :=
  { a with state := .running, startedAt := some now }

def finish (a : AttemptRec) (state : AttemptState) (exitCode : Int) (reason : String)
    (now : Time) : AttemptRec :=
  { a with
    state := state
    finishedAt := some now
    exitCode := some exitCode
    failureReason := some reason }

/-- The reason the reaper records, in the attempt and in the event. -/
def expiryReason : String := "lease or attempt deadline expired"

def expire (a : AttemptRec) (now : Time) : AttemptRec :=
  { a with state := .expired, finishedAt := some now, failureReason := some expiryReason }

def cancel (a : AttemptRec) (now : Time) : AttemptRec :=
  { a with state := .cancelled, finishedAt := some now, failureReason := some "cancelled" }

def check (a : AttemptRec) (o : Oracle) : AttemptCheck :=
  ⟨a.state, a.leaseToken, a.workerID, a.attemptNumber, a.validAt (o.clock 0) (o.clock 1)⟩

end AttemptRec

def JobRec.setState (j : JobRec) (state : JobState) (now : Time) : JobRec :=
  { j with state := state, updatedAt := now }

/-- The attempts `cancel` updates: active in the snapshot and still active. -/
def Db.cancellable (snap cur : Db) (job : Uuid) : List AttemptRec :=
  ((snap.attempts.filter (fun a => a.jobID = job && a.state.active)).filterMap
    (fun a => cur.attempt? a.id)).filter (fun a => a.jobID = job && a.state.active)

/-! ## Evaluation -/

/-- The writes of an UPDATE of one row, none when the row is not there. -/
def updateRow {ρ : Type} (row : Option ρ) (write : ρ → Write) : List Write :=
  (row.map write).toList

namespace Stmt

/-- What a statement returns and writes, or why it fails. -/
def eval (o : Oracle) (snap cur : Db) : (s : Stmt) → Except Err (s.Result × List Write)
  | .newID => .ok (Uuid.ID o.rand, [])
  | .lockKey key => if Text.hasNul key then .error (.db .invalidText) else .ok ((), [])
  | .insertJob id j =>
      let row := j.newRow id o
      if j.hasNul then .error (.db .invalidText)
      else if ¬ (Int4 row.cpu ∧ Int4 row.memoryMB ∧ Int4 row.gpu ∧ Int4 row.maxAttempts ∧
          Int4 row.timeoutSeconds) then .error (.db .outOfRange)
      else if ¬ (0 ≤ row.cpu ∧ 0 ≤ row.memoryMB ∧ 0 ≤ row.gpu ∧ 0 < row.maxAttempts ∧
          0 < row.timeoutSeconds) then .error (.db .check)
      else if (cur.jobByKey? j.idempotencyKey).isSome then .ok (false, [])
      else if (cur.job? id).isSome then .error (.db .unique)
      else .ok (true, [.insertJob row])
  | .jobByKey key => .ok ((snap.jobByKey? key).map JobRec.row, [])
  | .insertEvent job attempt kind payload =>
      if payload.hasNul then .error (.db .invalidText)
      else if (cur.job? job).isNone then .error (.db .foreignKey)
      else if attempt.any (fun a => (cur.attempt? a).isNone) then .error (.db .foreignKey)
      else .ok ((), [.insertEvent (cur.newEvent o job attempt kind payload)])
  | .insertRequest scope id hash =>
      if Text.hasNul scope || Text.hasNul id then .error (.db .invalidText)
      else if (cur.request? scope id).isSome then .ok ((), [])
      else .ok ((), [.insertRequest ⟨scope, id, hash, none, o.clock 0⟩])
  | .lockRequest scope id =>
      .ok ((reread (snap.request? scope id) (cur.request? scope id)).map
        (fun r => (r.payloadHash, r.response)), [])
  | .setResponse scope id response =>
      .ok ((), updateRow (reread (snap.request? scope id) (cur.request? scope id))
        (fun r => .putRequest { r with response := some response }))
  | .lockJob id => .ok ((reread (snap.job? id) (cur.job? id)).map JobRec.row, [])
  | .jobByID id => .ok ((snap.job? id).map JobRec.row, [])
  | .cancelAttempts job =>
      .ok ((), (snap.cancellable cur job).mapIdx (fun i a => .putAttempt (a.cancel (o.clock i))))
  | .setJob id state maxAttempts =>
      if ¬ Int4 maxAttempts then .error (.db .outOfRange)
      else if ¬ 0 < maxAttempts then .error (.db .check)
      else .ok ((), updateRow (reread (snap.job? id) (cur.job? id))
        (fun j => .putJob { j.setState state (o.clock 0) with maxAttempts := maxAttempts }))
  | .setJobState id state =>
      .ok ((), updateRow (reread (snap.job? id) (cur.job? id))
        (fun j => .putJob (j.setState state (o.clock 0))))
  | .insertWorker r =>
      if Text.hasNul r.workerID || Text.hasNul r.sessionID || Text.hasNul r.hostname then
        .error (.db .invalidText)
      else if ¬ (Int4 r.resources.cpu ∧ Int4 r.resources.memoryMB ∧ Int4 r.resources.gpu) then
        .error (.db .outOfRange)
      else if ¬ (0 ≤ r.resources.cpu ∧ 0 ≤ r.resources.memoryMB ∧ 0 ≤ r.resources.gpu) then
        .error (.db .check)
      else if (cur.worker? r.workerID).isSome then .ok ((), [])
      else .ok ((), [.insertWorker (r.newWorker o)])
  | .lockWorker id => .ok (reread (snap.worker? id) (cur.worker? id), [])
  | .touchWorker id =>
      .ok ((), updateRow (reread (snap.worker? id) (cur.worker? id))
        (fun w => .putWorker { w with lastHeartbeatAt := o.clock 0 }))
  | .drainWorker id =>
      .ok ((), updateRow (reread (snap.worker? id) (cur.worker? id))
        (fun w => .putWorker { w with state := .draining }))
  | .sumUsed worker => .ok (snap.used worker, [])
  | .pickJob limit =>
      .ok (((snap.placement limit).findSome? (fun j =>
        if o.locked j.id then none else (cur.job? j.id).filter (·.placeable limit))).map
          JobRec.row, [])
  | .insertAttempt id job worker token leaseSeconds timeoutSeconds =>
      let number := snap.nextNumber job
      let row := newAttempt id job number worker token leaseSeconds timeoutSeconds o
      if ¬ Int4 number then .error (.db .outOfRange)
      else if cur.attemptTaken id job number then .error (.db .unique)
      else if (cur.job? job).isNone || (cur.worker? worker).isNone then .error (.db .foreignKey)
      else .ok ((number, row.leaseExpiresAt, o.clock 3), [.insertAttempt row])
  | .checkpoint job => .ok ((snap.newestCheckpoint job).map ArtifactRec.artifact, [])
  | .attemptJob id => .ok ((snap.attempt? id).map AttemptRec.jobID, [])
  | .lockAttempt id =>
      .ok ((reread (snap.attempt? id) (cur.attempt? id)).map (·.check o), [])
  | .renewAttempt id leaseSeconds =>
      let row := reread (snap.attempt? id) (cur.attempt? id)
      .ok (row.map (fun a => ((a.renew leaseSeconds (o.clock 0)).leaseExpiresAt, o.clock 1)),
        updateRow row (fun a => .putAttempt (a.renew leaseSeconds (o.clock 0))))
  | .startAttempt id =>
      .ok ((), updateRow (reread (snap.attempt? id) (cur.attempt? id))
        (fun a => .putAttempt (a.start (o.clock 0))))
  | .artifactByKey key => .ok ((snap.artifactByKey? key).map ArtifactRec.artifact, [])
  | .insertArtifact id job attempt a =>
      if Text.hasNul a.objectKey || Text.hasNul a.contentType || Text.hasNul a.checksum then
        .error (.db .invalidText)
      else match ArtifactKind.parse a.kind with
        | none => .error (.db .check)
        | some kind =>
            if a.sizeBytes < 0 then .error (.db .check)
            else if (cur.artifact? id).isSome || (cur.artifactByKey? a.objectKey).isSome then
              .error (.db .unique)
            else if (cur.job? job).isNone || (cur.attempt? attempt).isNone then
              .error (.db .foreignKey)
            else .ok ((), [.insertArtifact (a.newRow id job attempt kind o)])
  | .finishAttempt id state exitCode reason =>
      if ¬ Int4 exitCode then .error (.db .outOfRange)
      else if Text.hasNul reason then .error (.db .invalidText)
      else .ok ((), updateRow (reread (snap.attempt? id) (cur.attempt? id))
        (fun a => .putAttempt (a.finish state exitCode reason (o.clock 0))))
  | .expiredJobs =>
      .ok ((((snap.reapOrder o.clock).filter (fun j => !o.locked j.id &&
        (cur.job? j.id).any (·.state.active))).take reapLimit).map JobRec.id, [])
  | .expiredAttempt job =>
      .ok (((snap.attempts.find? (fun a => a.jobID = job && a.expiredAt (o.clock 0))).bind
        (fun a => (snap.job? job).map (fun j => (a.id, a.attemptNumber, j.maxAttempts)))), [])
  | .expireAttempt id =>
      .ok ((), updateRow (reread (snap.attempt? id) (cur.attempt? id))
        (fun a => .putAttempt (a.expire (o.clock 0))))

end Stmt

end Rungrid
