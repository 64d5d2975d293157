-- SUMMARY: The transactions of the store: Submit, Mutate, Action, RPC with lease and attempt, and Reap.
import Rungrid.Store.Program

/-!
# Transactions

The bodies of the transactions of `internal/store`, statement for statement in
the order of the Go code. A body that fails is rolled back by the deferred
`tx.Rollback`, so a failing program stands for a transaction without effect.

`crypto/sha256` is the one part of the code that is not modelled: the digest of
a marshalled payload is a parameter.
-/

namespace Rungrid

/-- The hexadecimal SHA-256 digest of a text. -/
class Sha256 where
  hex : String → String

/-- A server: the lease duration it was opened with. `Open` admits two seconds or
more. -/
structure Store where
  leaseSeconds : Int
  admitted : 2 ≤ leaseSeconds

namespace Store

open Prog

/-! ## Submit -/

/-- Insert an event. -/
def event (job : Uuid) (attempt : Option Uuid) (kind : EventType) (payload : EventPayload) :
    Prog Unit :=
  sql (.insertEvent job attempt kind payload)

/-- Take the advisory locks of the keys, in the order given. -/
def lockKeys : List String → Prog Unit
  | [] => pure ()
  | key :: keys => do
      sql (.lockKey key)
      lockKeys keys

/-- The loop over the batch. `out` collects the rows in the order of the batch. -/
def submitLoop : List Job → List JobRow → Prog (List JobRow)
  | [], out => pure out
  | j :: js, out => do
      let id ← sql .newID
      let inserted ← sql (.insertJob id j)
      let found ← sql (.jobByKey j.idempotencyKey)
      match found with
      | none => .fail .notFound
      | some row =>
          if row.definition.marshal ≠ j.marshal then
            .fail (.conflict (some "idempotency key reused with different definition"))
          else do
            if inserted then event id none .submitted .empty
            submitLoop js (out ++ [row])

/-- `Submit`. -/
def submit (jobs : List Job) : Prog (List JobRow) :=
  if jobs.length < 1 ∨ jobs.length > 1000 then .fail (.invalid none)
  else match jobs.findSome? Job.validate with
    | some e => .fail (.invalid (some e))
    | none => do
        -- The keys are sorted so that two batches cannot wait for each other's keys.
        lockKeys ((jobs.map Job.idempotencyKey).insertionSort (· ≤ ·))
        submitLoop jobs []

/-! ## Mutate -/

section Receipts

variable [Sha256]

/-- `Mutate`: run `fn` at most once for a scope and request id, and keep its
response as the receipt. -/
def mutate (scope id : String) (payload : Json) (fn : Prog Response) : Prog Response :=
  if id = "" ∨ id.utf8ByteSize > 256 then .fail (.invalid (some "request_id required"))
  else do
    let hash := Sha256.hex payload.marshal
    sql (.insertRequest scope id hash)
    let row ← sql (.lockRequest scope id)
    match row with
    | none => .fail (.db .noRows)
    | some (old, response) =>
        if old ≠ hash then .fail (.conflict none)
        else match response with
          | some r => pure r
          | none => do
              let result ← fn
              sql (.setResponse scope id result)
              pure result

/-! ## Action -/

/-- The statements both actions end with. -/
def finishAction (id : Uuid) (a : Action) (requestID : String) (state : JobState)
    (maxAttempts : Int) : Prog Response := do
  sql (.setJob id state maxAttempts)
  event id none (.action a) (.action requestID)
  let row ← sql (.jobByID id)
  match row with
  | none => .fail .notFound
  | some j => pure (.job j)

/-- The body of `Action`. A text that is not a UUID is rejected by the driver. -/
def actionBody (id : String) (a : Action) (requestID : String) : Prog Response :=
  match Uuid.parse id with
  | none => .fail (.db .invalidText)
  | some jobID => do
      let row ← sql (.lockJob jobID)
      match row with
      | none => .fail .notFound
      | some j =>
          match a with
          | .cancel =>
              if j.state = .succeeded ∨ j.state = .failed then .fail (.conflict none)
              else do
                if j.state ≠ .cancelled then sql (.cancelAttempts jobID)
                finishAction jobID a requestID .cancelled j.maxAttempts
          | .retry =>
              if j.state ≠ .failed then .fail (.conflict none)
              else finishAction jobID a requestID .queued (j.maxAttempts + 1)
          | .unknown _ => .fail (.invalid none)

/-- The scope an action's receipts are kept under. -/
def actionScope (a : Action) : String := "job:" ++ a.text

/-- `Action`. -/
def action (id : String) (a : Action) (requestID : String) : Prog Response :=
  mutate (actionScope a) requestID (.str id) (actionBody id a requestID)

/-! ## RPC: registration -/

def registerBody (r : Request) : Prog Response :=
  if ¬ r.resources.Valid ∨ r.resources.cpu < 1 ∨ r.resources.memoryMB < 1 then .fail (.invalid none)
  else do
    sql (.insertWorker r)
    let row ← sql (.lockWorker r.workerID)
    match row with
    | none => .fail (.db .noRows)
    | some w =>
        if w.sessionID ≠ r.sessionID ∨ w.capacity ≠ r.resources then .fail (.conflict none)
        else pure .registered

/-! ## RPC: placement -/

/-- `lease`, for a worker row that is locked and active. -/
def lease (s : Store) (r : Request) (cap : Resources) : Prog Response := do
  let used ← sql (.sumUsed r.workerID)
  let found ← sql (.pickJob (cap.sub used))
  match found with
  | none => pure .idle
  | some j => do
      let attemptID ← sql .newID
      let token ← sql .newID
      let (number, expires, now) ← sql (.insertAttempt attemptID j.id r.workerID token
        s.leaseSeconds j.definition.timeoutSeconds)
      if number > j.maxAttempts then .fail .budget
      else do
        sql (.setJobState j.id .leased)
        let checkpoint ← sql (.checkpoint j.id)
        event j.id (some attemptID) .leased (.leased r.requestID r.workerID number)
        pure (.lease ⟨{ j with state := .leased }, attemptID, number, token, expires, now,
          checkpoint⟩)

/-! ## RPC: attempts -/

/-- `^[a-f0-9]{64}$`. -/
def checksumPattern (s : String) : Bool :=
  s.toList.length = 64 && s.toList.all (fun c => c.isDigit || ('a' ≤ c && c ≤ 'f'))

/-- The beginning of every object key of an attempt. The job id is the database's
text and the attempt id the request's. -/
def keyScope (definition : Job) (jobID : Uuid) (attemptID : String) : String :=
  let scope := Text.trim definition.artifactPrefix '/'
  (if scope ≠ "" then scope ++ "/" else "") ++ jobID.text ++ "/" ++ attemptID ++ "/"

/-- The check a reported artifact has to pass. -/
def artifactOk (scope : String) (a : Artifact) : Bool :=
  Text.startsWith a.objectKey scope && !Text.contains a.objectKey ".." &&
    checksumPattern a.checksum && 0 ≤ a.sizeBytes && (ArtifactKind.parse a.kind).isSome

/-- The loop over the reported artifacts. An entry that is already recorded with
the same columns is skipped. -/
def recordArtifacts (scope : String) (jobID attemptID : Uuid) : List Artifact → Prog Unit
  | [] => pure ()
  | a :: as =>
      if !artifactOk scope a then .fail (.invalid none)
      else do
        let existing ← sql (.artifactByKey a.objectKey)
        match existing with
        | some e =>
            if e ≠ a then .fail (.conflict none)
            else recordArtifacts scope jobID attemptID as
        | none => do
            let id ← sql .newID
            sql (.insertArtifact id jobID attemptID a)
            recordArtifacts scope jobID attemptID as

/-- The bounds on a report: lines, artifacts, reason and the length of each line. -/
def reportOk (r : Request) : Bool :=
  r.logs.elems.length ≤ 100 && r.artifacts.elems.length ≤ 100 && r.reason.utf8ByteSize ≤ 8192 &&
    r.logs.elems.all (fun line => line.utf8ByteSize ≤ 16384)

/-- The event an attempt RPC ends with. -/
def accept (m : Method) (r : Request) (jobID attemptID : Uuid) : Prog Response := do
  event jobID (some attemptID) (.method m)
    (.report r.requestID r.workerID r.logs r.reason r.exitCode)
  pure .accepted

/-- Record the result of an attempt and move the job on. -/
def finish (m : Method) (r : Request) (jobID attemptID : Uuid) (state : AttemptState)
    (next : JobState) : Prog Response := do
  sql (.finishAttempt attemptID state r.exitCode r.reason)
  sql (.setJobState jobID next)
  accept m r jobID attemptID

/-- What a request that passed the fence does. -/
def attemptBody (s : Store) (m : Method) (r : Request) (j : JobRow) (attemptID : Uuid)
    (c : AttemptCheck) : Prog Response :=
  match m with
  | .heartbeat => do
      let renewed ← sql (.renewAttempt attemptID s.leaseSeconds)
      match renewed with
      | none => .fail (.db .noRows)
      | some (expires, now) => pure (.renewed expires now)
  | .startAttempt => do
      if c.state = .leased then do
        sql (.startAttempt attemptID)
        sql (.setJobState j.id .running)
      accept m r j.id attemptID
  | .reportProgress | .completeAttempt | .failAttempt =>
      if c.state ≠ .running then .fail (.conflict none)
      else if !reportOk r then .fail (.invalid none)
      else do
        recordArtifacts (keyScope j.definition j.id r.attemptID) j.id attemptID r.artifacts.elems
        match m with
        | .completeAttempt =>
            if r.exitCode ≠ 0 then .fail (.invalid none)
            else finish m r j.id attemptID .succeeded .succeeded
        | .failAttempt => finish m r j.id attemptID .failed (retryState c.number j.maxAttempts)
        | _ => accept m r j.id attemptID
  | _ => .fail (.invalid none)

/-- The fence: the attempt is the worker's, its token is the request's, its lease
and deadline are ahead, and both the job and the attempt are active. -/
def fence (r : Request) (j : JobRow) (c : AttemptCheck) : Bool :=
  c.worker = r.workerID && c.token.text = r.leaseToken && c.valid && j.state.active &&
    c.state.active

/-- `attempt`. -/
def attempt (s : Store) (m : Method) (r : Request) : Prog Response :=
  match Uuid.parse r.attemptID, Uuid.parse r.leaseToken with
  | some attemptID, some _ => do
      let owner ← sql (.attemptJob attemptID)
      match owner with
      | none => .fail .notFound
      | some jobID => do
          let row ← sql (.lockJob jobID)
          match row with
          | none => .fail .notFound
          | some j => do
              let checked ← sql (.lockAttempt attemptID)
              match checked with
              | none => .fail (.db .noRows)
              | some c =>
                  if !fence r j c then .fail (.conflict none)
                  else attemptBody s m r j attemptID c
  | _, _ => .fail (.invalid none)

/-! ## RPC -/

/-- The methods of a registered worker, with its row locked. -/
def workerBody (s : Store) (m : Method) (r : Request) : Prog Response := do
  let row ← sql (.lockWorker r.workerID)
  match row with
  | none => .fail .notFound
  | some w =>
      if w.sessionID ≠ r.sessionID then .fail (.conflict none)
      else do
        sql (.touchWorker r.workerID)
        match m with
        | .leaseJob =>
            if w.state ≠ .active then .fail (.conflict none) else s.lease r w.capacity
        | .releaseWorker => do
            sql (.drainWorker r.workerID)
            pure .released
        | .heartbeat => if r.attemptID = "" then pure .alive else s.attempt m r
        | .startAttempt | .reportProgress | .completeAttempt | .failAttempt => s.attempt m r
        | .registerWorker | .unknown _ => .fail (.invalid none)

def rpcBody (s : Store) (m : Method) (r : Request) : Prog Response :=
  match m with
  | .registerWorker => registerBody r
  | _ => s.workerBody m r

/-- The scope an RPC's receipts are kept under. -/
def rpcScope (m : Method) (r : Request) : String := "rpc:" ++ m.text ++ ":" ++ r.workerID

/-- The worker and session ids `RPC` admits. -/
def idsOk (r : Request) : Bool :=
  r.workerID ≠ "" && r.sessionID ≠ "" && r.workerID.utf8ByteSize ≤ 256 &&
    r.sessionID.utf8ByteSize ≤ 256

/-- `RPC`. -/
def rpc (s : Store) (m : Method) (r : Request) : Prog Response :=
  if !idsOk r then .fail (.invalid none)
  else mutate (rpcScope m r) r.requestID r.toJson (s.rpcBody m r)

end Receipts

/-! ## Reap -/

/-- The loop over the candidates. The expiry of each is queried again under the
lock of its job. -/
def reapLoop : List Uuid → Nat → Prog Nat
  | [], reaped => pure reaped
  | id :: ids, reaped => do
      let found ← sql (.expiredAttempt id)
      match found with
      | none => reapLoop ids reaped
      | some (attemptID, number, max) => do
          sql (.expireAttempt attemptID)
          sql (.setJobState id (retryState number max))
          event id (some attemptID) .leaseExpired (.expired AttemptRec.expiryReason)
          reapLoop ids (reaped + 1)

/-- `Reap`. -/
def reap : Prog Nat := do
  let ids ← sql .expiredJobs
  reapLoop ids 0

/-! ## Workers -/

/-- A worker as `Workers` lists it. -/
structure WorkerView where
  id : String
  hostname : String
  state : WorkerState
  registeredAt : Time
  lastHeartbeatAt : Time
  total : Resources
  available : Resources
deriving DecidableEq

/-- `Workers`. -/
def workers (db : Db) : List WorkerView :=
  ((db.workers.insertionSort (fun a b => a.id ≤ b.id)).take 1000).map
    (fun w => ⟨w.id, w.hostname, w.state, w.registeredAt, w.lastHeartbeatAt, w.capacity,
      w.capacity.sub (db.used w.id)⟩)

end Store

end Rungrid
