-- SUMMARY: The operations of the store as atomic steps on the database, and finite runs of them.
import Rungrid.Base.Machine
import Rungrid.Store.Transactions

/-!
# Atomic steps

An operation is one transaction. A call names the server that executes it and
fixes what comes from outside: clock readings, random bytes, sequence gaps and
the job rows that concurrent transactions hold locked. A run is a list of calls
in the order in which they commit.
-/

namespace Rungrid

/-- The operations: the requests a client can make, and the reaper's tick. -/
inductive Op where
  | submit (jobs : List Job)
  | rpc (m : Method) (r : Request)
  | action (id : String) (a : Action) (requestID : String)
  | reap

inductive Result where
  | rows (rows : List JobRow)
  | response (r : Response)
  | reaped (n : Nat)
deriving DecidableEq

structure Call where
  server : Store
  op : Op
  oracle : Nat → Oracle

/-- The readings of the clock a call makes. -/
def Call.Reads (c : Call) (t : Time) : Prop := ∃ n i, t = (c.oracle n).clock i

section

variable [Sha256]

/-- The transaction of an operation. -/
def Op.prog (s : Store) : Op → Prog Result
  | .submit jobs => do
      let rows ← Store.submit jobs
      pure (.rows rows)
  | .rpc m r => do
      let response ← s.rpc m r
      pure (.response response)
  | .action id a requestID => do
      let response ← Store.action id a requestID
      pure (.response response)
  | .reap => do
      let n ← Store.reap
      pure (.reaped n)

/-- Execute a call: what it returns, and the database it leaves. A transaction
that fails is rolled back. -/
def perform (c : Call) (db : Db) : Except Err Result × Db :=
  match (c.op.prog c.server).run c.oracle db with
  | .ok (r, db') => (.ok r, db')
  | .error e => (.error e, db)

/-- The database after a run. -/
def exec (cs : List Call) (db : Db) : Db := Machine.exec perform cs db

@[simp] theorem exec_nil (db : Db) : exec [] db = db := rfl

@[simp] theorem exec_cons (c : Call) (cs : List Call) (db : Db) :
    exec (c :: cs) db = exec cs (perform c db).2 := rfl

theorem exec_append (cs ds : List Call) (db : Db) :
    exec (cs ++ ds) db = exec ds (exec cs db) := Machine.exec_append cs ds db

theorem exec_concat (cs : List Call) (c : Call) (db : Db) :
    exec (cs ++ [c]) db = (perform c (exec cs db)).2 := exec_append cs [c] db

/-- The databases runs reach from the empty one. -/
def Reachable (db : Db) : Prop := ∃ cs, db = exec cs Db.empty

theorem Reachable.exec {db : Db} (h : Reachable db) (cs : List Call) : Reachable (exec cs db) := by
  obtain ⟨ds, rfl⟩ := h
  exact ⟨ds ++ cs, (exec_append ds cs Db.empty).symm⟩

theorem Reachable.perform {db : Db} (h : Reachable db) (c : Call) : Reachable (perform c db).2 :=
  h.exec [c]

/-- A rejected call leaves the database as it was. -/
theorem perform_transactional : Machine.Transactional perform := by
  intro c db e h
  unfold perform at h ⊢
  split
  · rename_i hrun
    simp [hrun] at h
  · rfl

/-- What a run brings about, one of its successful calls brings about. -/
theorem exec_origin {D : Db → Prop} {cs : List Call} {db : Db} (hdb : ¬ D db) (h : D (exec cs db)) :
    ∃ pre c post res, cs = pre ++ c :: post ∧ ¬ D (exec pre db) ∧ D (perform c (exec pre db)).2 ∧
      (perform c (exec pre db)).1 = .ok res :=
  Machine.exec_origin perform_transactional hdb h

theorem perform_ok {c : Call} {db db' : Db} {r : Result} :
    perform c db = (.ok r, db') ↔ (c.op.prog c.server).run c.oracle db = .ok (r, db') := by
  unfold perform
  split
  · rename_i hrun
    simp [hrun]
  · rename_i hrun
    simp [hrun]

end

/-! ## A sample run

The calls of one worker on one job, for statements about a concrete run. -/

namespace Sample

def server : Store := ⟨5, by decide⟩

def job : Job := ⟨"n", some ["true"], none, ⟨1, 64, 0⟩, 3, 30, "k", ""⟩

/-- The readings of the clock follow each other from `t` on and stay before `t + 1000`. -/
def oracle (t : Nat) : Nat → Oracle :=
  fun n => ⟨fun i => t + min (10 * n + min i 9) 999, BitVec.ofNat 128 (t + n), 0, fun _ => false⟩

def register : Request := ⟨"1", "w", "s", "", "", "h", ⟨2, 128, 0⟩, 0, "", none, none⟩

def submitCall : Call := ⟨server, .submit [job], oracle 1000⟩

def registerCall : Call := ⟨server, .rpc .registerWorker register, oracle 2000⟩

def leaseCall : Call := ⟨server, .rpc .leaseJob { register with requestID := "2" }, oracle 3000⟩

/-- One job is submitted and leased. -/
def leased : List Call := [submitCall, registerCall, leaseCall]

/-- The ids of the attempt and of its token, as the random bytes of `leaseCall` give them. -/
def attemptID : Uuid := Uuid.ID 3006

def token : Uuid := Uuid.ID 3007

/-- A request of the attempt. -/
def request (id : String) : Request :=
  { register with requestID := id, attemptID := attemptID.text, leaseToken := token.text }

def startCall : Call := ⟨server, .rpc .startAttempt (request "3"), oracle 4000⟩

def completeCall : Call := ⟨server, .rpc .completeAttempt (request "4"), oracle 5000⟩

/-- A digest for runs in which every request has an id of its own: then none is compared,
and the receipts stay small. -/
@[reducible] def digest : Sha256 := ⟨fun _ => ""⟩

/-- A digest that tells all payloads apart, for the other runs. -/
@[reducible] def plain : Sha256 := ⟨fun payload => payload⟩

def jobID : Uuid := Uuid.ID 1001

def jobRow : JobRec := { job.newRow jobID (oracle 1000 2) with state := .leased, updatedAt := 3090 }

def worker : WorkerRec := { register.newWorker (oracle 2000 2) with lastHeartbeatAt := 3030 }

def attempt : AttemptRec := newAttempt attemptID jobID 1 "w" token 5 30 (oracle 3000 8)

/-- The lease the worker gets. -/
def lease : Lease :=
  ⟨{ jobRow.row with updatedAt := 1021 }, attemptID, 1, token, 5003080, 3083, none⟩

/-- What `leased` leaves. -/
def leasedDb : Db where
  jobs := [jobRow]
  workers := [worker]
  attempts := [attempt]
  artifacts := []
  events := [⟨1, jobID, none, .submitted, .empty, 1040⟩,
    ⟨2, jobID, some attemptID, .leased, .leased "2" "w" 1, 3110⟩]
  requests := [⟨"rpc:RegisterWorker:w", "1", "", some .registered, 2000⟩,
    ⟨"rpc:LeaseJob:w", "2", "", some (.lease lease), 3000⟩]

theorem leased_exec : @exec digest leased Db.empty = leasedDb := by decide +kernel

/-- What the start of the attempt leaves. -/
def startedDb : Db where
  jobs := [{ jobRow with state := .running, updatedAt := 4080 }]
  workers := [{ worker with lastHeartbeatAt := 4030 }]
  attempts := [attempt.start 4070]
  artifacts := []
  events := leasedDb.events ++
    [⟨3, jobID, some attemptID, .method .startAttempt, .report "3" "w" none "" 0, 4090⟩]
  requests := leasedDb.requests ++ [⟨"rpc:StartAttempt:w", "3", "", some .accepted, 4000⟩]

theorem started_exec : @exec digest (leased ++ [startCall]) Db.empty = startedDb := by
  rw [@exec_concat digest, leased_exec]
  decide +kernel

theorem leased_reachable : @Reachable digest leasedDb := ⟨leased, leased_exec.symm⟩

end Sample

end Rungrid
