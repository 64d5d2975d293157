-- SUMMARY: The gRPC interface of the workers: decoding a request's payload, running the method, and the code of an error.
import Rungrid.Base.Parse
import Rungrid.Scheduler.Decode
import Rungrid.Api.Rest
import Rungrid.Worker.Rpc

/-!
# gRPC

`internal/api/grpc.go`. The payload of a request is a JSON text that is decoded into
the fields of a `store.Request`, with unknown fields disallowed; what follows its first
value is not read. The ids of the request itself replace those of the payload.
-/

namespace Rungrid

namespace Grpc

open Decode (foldName decodeString decodeInt decodeElements decodeResources)
open Rest (errorText commit)

/-! ## Requests -/

/-- `pb.Request`. The payload is given by the characters its bytes encode. -/
structure Envelope where
  requestId : String
  workerId : String
  sessionId : String
  attemptId : String
  leaseToken : String
  payloadJson : List Char
  waitSeconds : Int

/-- A slice that is decoded, and the array behind it. -/
structure Slice (α : Type) where
  value : GoSlice α
  backing : List α

section Slices

variable {α : Type} (dec : α → Json → Option α) (zero : α)

def decodeSlice (s : Slice α) : Json → Option (Slice α)
  | .null => some ⟨none, []⟩
  | .arr [] => some ⟨some [], []⟩
  | .arr xs => do
      let as ← decodeElements dec zero s.backing xs
      return ⟨some as, as ++ s.backing.drop as.length⟩
  | _ => none

end Slices

def setArtifact (a : Artifact) (f : String × Json) : Option Artifact :=
  if foldName f.1 = "object_key" then
    (decodeString a.objectKey f.2).map (fun s => { a with objectKey := s })
  else if foldName f.1 = "content_type" then
    (decodeString a.contentType f.2).map (fun s => { a with contentType := s })
  else if foldName f.1 = "size_bytes" then
    (decodeInt a.sizeBytes f.2).map (fun n => { a with sizeBytes := n })
  else if foldName f.1 = "checksum" then
    (decodeString a.checksum f.2).map (fun s => { a with checksum := s })
  else if foldName f.1 = "kind" then (decodeString a.kind f.2).map (fun s => { a with kind := s })
  else none

def decodeArtifact (old : Artifact) : Json → Option Artifact
  | .null => some old
  | .obj fields => fields.foldlM setArtifact old
  | _ => none

/-- The zero value of `store.Artifact`. -/
def noArtifact : Artifact := ⟨"", "", 0, "", ""⟩

/-- The request decoded so far, with the arrays behind its slices. -/
structure Target where
  request : Request
  lines : List String
  entries : List Artifact

/-- The zero value of `store.Request`. -/
def zero : Target := ⟨⟨"", "", "", "", "", "", Resources.zero, 0, "", none, none⟩, [], []⟩

/-- One member of the payload. -/
def setField (t : Target) (f : String × Json) : Option Target :=
  let r := t.request
  if foldName f.1 = "request_id" then
    (decodeString r.requestID f.2).map (fun s => { t with request := { r with requestID := s } })
  else if foldName f.1 = "worker_id" then
    (decodeString r.workerID f.2).map (fun s => { t with request := { r with workerID := s } })
  else if foldName f.1 = "session_id" then
    (decodeString r.sessionID f.2).map (fun s => { t with request := { r with sessionID := s } })
  else if foldName f.1 = "attempt_id" then
    (decodeString r.attemptID f.2).map (fun s => { t with request := { r with attemptID := s } })
  else if foldName f.1 = "lease_token" then
    (decodeString r.leaseToken f.2).map (fun s => { t with request := { r with leaseToken := s } })
  else if foldName f.1 = "hostname" then
    (decodeString r.hostname f.2).map (fun s => { t with request := { r with hostname := s } })
  else if foldName f.1 = "resources" then
    (decodeResources r.resources f.2).map (fun g => { t with request := { r with resources := g } })
  else if foldName f.1 = "exit_code" then
    (decodeInt r.exitCode f.2).map (fun n => { t with request := { r with exitCode := n } })
  else if foldName f.1 = "reason" then
    (decodeString r.reason f.2).map (fun s => { t with request := { r with reason := s } })
  else if foldName f.1 = "logs" then
    (decodeSlice decodeString "" ⟨r.logs, t.lines⟩ f.2).map
      (fun s => { t with request := { r with logs := s.value }, lines := s.backing })
  else if foldName f.1 = "artifacts" then
    (decodeSlice decodeArtifact noArtifact ⟨r.artifacts, t.entries⟩ f.2).map
      (fun s => { t with request := { r with artifacts := s.value }, entries := s.backing })
  else none

/-- `d.Decode(&r)` of a document. -/
def decode : Json → Option Request
  | .null => some zero.request
  | .obj fields => (fields.foldlM setField zero).map Target.request
  | _ => none

/-- The fields a payload gives. An empty one gives none, and of another the first value
counts. -/
def payload (text : List Char) : Option Request :=
  if text = [] then some zero.request
  else (Json.Read.value (text.length + 1) text).bind (fun v => decode v.1)

/-- The request with the ids of the envelope. -/
def Envelope.fill (e : Envelope) (r : Request) : Request :=
  { r with
    requestID := e.requestId
    workerID := e.workerId
    sessionID := e.sessionId
    attemptID := e.attemptId
    leaseToken := e.leaseToken }

def Envelope.request (e : Envelope) : Option Request := (payload e.payloadJson).map e.fill

/-! ## Calls -/

inductive Answer where
  | value (res : Response)
  | error (code : Worker.Status) (message : String)

/-- The code and the message of an error. -/
def status : Err → Worker.Status × String
  | .conflict detail => (.failedPrecondition, errorText "conflict or stale lease" detail)
  | .invalid detail => (.invalidArgument, errorText "invalid request" detail)
  | .notFound => (.notFound, "not found")
  | .budget | .db _ => (.internal, "internal error")

def answer : Except Err Response → Answer
  | .ok res => .value res
  | .error err => .error (status err).1 (status err).2

/-- The server does not ask for a retry. -/
theorem status_final (err : Err) :
    (status err).1 ≠ .unavailable ∧ (status err).1 ≠ .deadlineExceeded := by
  cases err <;> exact ⟨by simp [status], by simp [status]⟩

/-- How a turn of the wait for a queued job ends. -/
inductive Turn where
  /-- The query finds a job or a receipt, or it fails. -/
  | found
  | tick
  | deadline
  | canceled
  | exceeded
deriving DecidableEq, Repr

/-- The wait of `LeaseJob`. A context that is done is answered at once, and everything
else goes on to the call of the store. -/
def poll : List Turn → Option Answer
  | [] | .found :: _ | .deadline :: _ => none
  | .tick :: turns => poll turns
  | .canceled :: _ => some (.error .canceled "context canceled")
  | .exceeded :: _ => some (.error .deadlineExceeded "context deadline exceeded")

/-- `if method == "LeaseJob" && in.WaitSeconds > 0`. -/
def wait (m : Method) (e : Envelope) (turns : List Turn) : Option Answer :=
  if m = .leaseJob ∧ 0 < e.waitSeconds then poll turns else none

section Calls

variable [Sha256]

/-- `WorkerServer.call`. -/
def call (s : Store) (m : Method) (e : Envelope) (turns : List Turn) (o : Nat → Oracle) (db : Db) :
    Answer × Db :=
  match e.request with
  | none => (.error .invalidArgument "invalid payload", db)
  | some r =>
      match wait m e turns with
      | some answer => (answer, db)
      | none =>
          let (out, db') := commit (s.rpc m r) o db
          (answer out, db')

variable {s : Store} {m : Method} {e : Envelope} {turns : List Turn} {o : Nat → Oracle} {db db' : Db}
  {r : Request}

/-- The transaction of a call is one of the operations of the store. -/
theorem perform_rpc (s : Store) (m : Method) (r : Request) (o : Nat → Oracle) (db : Db) :
    perform ⟨s, .rpc m r, o⟩ db
      = ((commit (s.rpc m r) o db).1.map Result.response, (commit (s.rpc m r) o db).2) := by
  have hmap : ((Op.rpc m r).prog s).run o db = _ := Prog.run_map (s.rpc m r) Result.response o db
  unfold perform commit
  rw [hmap]
  cases (s.rpc m r).run o db <;> rfl

theorem call_eq (hr : e.request = some r) (hwait : wait m e turns = none) :
    call s m e turns o db =
      (answer (commit (s.rpc m r) o db).1, (commit (s.rpc m r) o db).2) := by
  rw [call, hr]
  simp only [hwait]

/-- A call is answered with what the store answers its request with. -/
theorem call_value (hr : e.request = some r) (hwait : wait m e turns = none) {res : Response}
    (h : perform ⟨s, .rpc m r, o⟩ db = (.ok (.response res), db')) :
    call s m e turns o db = (.value res, db') := by
  rw [perform_rpc] at h
  rw [call_eq hr hwait]
  rcases hcommit : commit (s.rpc m r) o db with ⟨err | res', db''⟩ <;> rw [hcommit] at h
  · cases h
  · cases h
    rfl

theorem call_error (hr : e.request = some r) (hwait : wait m e turns = none) {err : Err}
    (h : perform ⟨s, .rpc m r, o⟩ db = (.error err, db')) :
    call s m e turns o db = (.error (status err).1 (status err).2, db') := by
  rw [perform_rpc] at h
  rw [call_eq hr hwait]
  rcases hcommit : commit (s.rpc m r) o db with ⟨err' | res, db''⟩ <;> rw [hcommit] at h
  · cases h
    rfl
  · cases h

/-- An error of a call is one of the store. -/
theorem call_code (hr : e.request = some r) (hwait : wait m e turns = none) {code : Worker.Status}
    {message : String} (h : (call s m e turns o db).1 = .error code message) :
    ∃ err, (perform ⟨s, .rpc m r, o⟩ db).1 = .error err ∧ code = (status err).1 := by
  rw [call_eq hr hwait] at h
  rw [perform_rpc]
  rcases hcommit : commit (s.rpc m r) o db with ⟨err | res, db'⟩ <;> rw [hcommit] at h
  · cases h
    exact ⟨err, rfl, rfl⟩
  · cases h

end Calls

end Grpc

end Rungrid
