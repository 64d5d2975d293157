-- SUMMARY: The endpoints of the REST interface over the store, and that they reveal none of the secrets that fence workers.
import Mathlib.Algebra.Group.Int.Defs
import Rungrid.Lifecycle.Placement

/-!
# REST

An endpoint reads the store or runs one of its transactions. The secrets of the
store are the lease token of an attempt, the session of a worker and the receipts
of the RPC interface, which hold lease tokens.

`Db.redact` blanks the secrets. A statement is public when what it returns, and
what it writes once the writes are redacted, can be computed from the redacted
database. A transaction of public statements then runs alike in two databases with
the same redaction.
-/

namespace Rungrid

open Prog

/-! ## Rows and pages -/

/-- `to_jsonb(a)-'lease_token'`: the columns of an attempt but for its token. -/
structure AttemptRow where
  id : Uuid
  jobID : Uuid
  attemptNumber : Int
  workerID : String
  state : AttemptState
  leaseExpiresAt : Time
  deadlineAt : Time
  createdAt : Time
  startedAt : Option Time
  finishedAt : Option Time
  exitCode : Option Int
  failureReason : Option String
deriving DecidableEq

def AttemptRec.listed (a : AttemptRec) : AttemptRow :=
  ⟨a.id, a.jobID, a.attemptNumber, a.workerID, a.state, a.leaseExpiresAt, a.deadlineAt, a.createdAt,
    a.startedAt, a.finishedAt, a.exitCode, a.failureReason⟩

/-- `LIMIT limit OFFSET offset`. -/
def pageOf {ρ : Type} (limit offset : Nat) (rows : List ρ) : List ρ := (rows.drop offset).take limit

/-- `strconv.Atoi`: an optional sign and decimal digits, within 64 bits. -/
def atoi (s : String) : Option Int :=
  let (negative, digits) : Bool × List Char := match s.toList with
    | '-' :: ds => (true, ds)
    | '+' :: ds => (false, ds)
    | ds => (false, ds)
  let n : Int := digits.foldl (fun n c => n * 10 + (c.toNat - '0'.toNat : Nat)) (0 : Nat)
  let v := if negative then -n else n
  if digits = [] ∨ digits.any (!·.isDigit) ∨ v < -2 ^ 63 ∨ 2 ^ 63 ≤ v then none else some v

/-- A number of the query, or its default when the query does not have it. -/
def queryInt (v : String) (default : Int) : Option Int := if v = "" then some default else atoi v

/-- `page`: the limit and the offset of a query. -/
def page (limit offset : String) : Except Err (Nat × Nat) :=
  match queryInt limit 100, queryInt offset 0 with
  | some limit, some offset =>
      if limit < 1 ∨ limit > 1000 ∨ offset < 0 then .error (.invalid none)
      else .ok (limit.toNat, offset.toNat)
  | _, _ => .error (.invalid none)

namespace Store

/-- `Get`. -/
def get (db : Db) (id : Uuid) : Except Err JobRow :=
  match db.job? id with
  | none => .error .notFound
  | some j => .ok j.row

/-- `List`. -/
def list (db : Db) (limit offset : Nat) : List JobRow :=
  (pageOf limit offset (db.jobs.insertionSort JobRec.before)).map JobRec.row

/-- The tables `ReadRows` has a query for. -/
inductive RowKind where
  | attempts
  | events
  | artifacts
deriving DecidableEq

inductive Rows where
  | attempts (rows : List AttemptRow)
  | events (rows : List EventRec)
  | artifacts (rows : List ArtifactRec)
deriving DecidableEq

/-- `ReadRows`. Artifacts of one instant stay in the order of the table. -/
def readRows (db : Db) (job : Uuid) (limit offset : Nat) : RowKind → Rows
  | .attempts => .attempts (pageOf limit offset
      (((db.attemptsOf job).map AttemptRec.listed).insertionSort
        (fun a b => a.attemptNumber ≤ b.attemptNumber)))
  | .events => .events (pageOf limit offset
      ((db.eventsOf job).insertionSort (fun a b => a.id ≤ b.id)))
  | .artifacts => .artifacts (pageOf limit offset ((db.artifactsOf job).insertionSort
      (fun a b => a.createdAt ≤ b.createdAt)))

end Store

/-! ## Endpoints -/

namespace Rest

/-- The requests of the interface. The body of a submission is `none` when it does
not decode; ids and query texts are as they came. -/
inductive Endpoint where
  | submit (body : Option Job)
  | batch (body : Option (List Job))
  | list (limit offset : String)
  | get (id : String)
  | rows (kind : Store.RowKind) (id limit offset : String)
  | cancel (id requestID : String)
  | retry (id requestID : String)
  | workers

/-- What an endpoint replies with when it succeeds. -/
inductive Reply where
  | job (row : JobRow)
  | jobs (rows : List JobRow)
  | rows (rows : Store.Rows)
  | response (r : Response)
  | workers (rows : List Store.WorkerView)
deriving DecidableEq

/-- The response of the server: the value, or a status code with a message. -/
inductive Answer where
  | value (v : Reply)
  | error (code : Nat) (message : String)
deriving DecidableEq

/-- A sentinel error with the text wrapped around it. -/
def errorText (sentinel : String) : Option String → String
  | none => sentinel
  | some detail => sentinel ++ ": " ++ detail

/-- `reply`. -/
def reply : Except Err Reply → Answer
  | .ok v => .value v
  | .error (.invalid detail) => .error 400 (errorText "invalid request" detail)
  | .error .notFound => .error 404 "not found"
  | .error (.conflict detail) => .error 409 (errorText "conflict or stale lease" detail)
  | .error _ => .error 500 "internal error"

/-- Run a transaction of the store. One that fails is rolled back. -/
def commit {α : Type} (p : Prog α) (o : Nat → Oracle) (db : Db) : Except Err α × Db :=
  match p.run o db with
  | .ok (a, db') => (.ok a, db')
  | .error e => (.error e, db)

/-- The rows of a job, once the id, the page and the job have been checked. -/
def readJob (kind : Store.RowKind) (id limit offset : String) (db : Db) : Except Err Reply :=
  match Uuid.parse id with
  | none => .error (.invalid none)
  | some job => do
      let (limit, offset) ← page limit offset
      let _ ← Store.get db job
      return .rows (Store.readRows db job limit offset kind)

section

variable [Sha256]

/-- `cancel` and `retry`. -/
def act (a : Action) (id requestID : String) : Prog Reply :=
  match Uuid.parse id with
  | none => .fail (.invalid none)
  | some _ => do
      let response ← Store.action id a requestID
      return .response response

/-- The outcome of a request, and the database it leaves. -/
def handle (o : Nat → Oracle) (db : Db) : Endpoint → Except Err Reply × Db
  | .submit none => (.error (.invalid none), db)
  | .submit (some j) => commit (do
      let rows ← Store.submit [j]
      -- The batch of one job has one row.
      match rows with
      | row :: _ => return .job row
      | [] => .fail .notFound) o db
  | .batch none => (.error (.invalid none), db)
  | .batch (some jobs) => commit (do
      let rows ← Store.submit jobs
      return .jobs rows) o db
  | .list limit offset => ((page limit offset).map (fun p => .jobs (Store.list db p.1 p.2)), db)
  | .get id =>
      (match Uuid.parse id with
        | none => .error (.invalid none)
        | some job => (Store.get db job).map .job, db)
  | .rows kind id limit offset => (readJob kind id limit offset db, db)
  | .cancel id requestID => commit (act .cancel id requestID) o db
  | .retry id requestID => commit (act .retry id requestID) o db
  | .workers => (.ok (.workers (Store.workers db)), db)

/-- Serve a request: the response, and the database it leaves. -/
def serve (x : Endpoint) (o : Nat → Oracle) (db : Db) : Answer × Db :=
  (reply (handle o db x).1, (handle o db x).2)

end

end Rest

/-! ## Redaction -/

/-- The scopes of the RPC interface. -/
def rpcScope (scope : String) : Bool := Text.startsWith scope "rpc:"

def AttemptRec.redact (a : AttemptRec) : AttemptRec := { a with leaseToken := ⟨0⟩ }

def WorkerRec.redact (w : WorkerRec) : WorkerRec := { w with sessionID := "" }

def RequestRec.redact (r : RequestRec) : RequestRec :=
  { r with response := if rpcScope r.scope then none else r.response }

/-- The database with its secrets blanked. -/
def Db.redact (db : Db) : Db :=
  { db with
    workers := db.workers.map WorkerRec.redact
    attempts := db.attempts.map AttemptRec.redact
    requests := db.requests.map RequestRec.redact }

def Write.redact : Write → Write
  | .insertWorker r => .insertWorker r.redact
  | .putWorker r => .putWorker r.redact
  | .insertAttempt r => .insertAttempt r.redact
  | .putAttempt r => .putAttempt r.redact
  | .insertRequest r => .insertRequest r.redact
  | .putRequest r => .putRequest r.redact
  | w => w

@[simp] theorem AttemptRec.id_redact (a : AttemptRec) : a.redact.id = a.id := rfl

@[simp] theorem WorkerRec.id_redact (w : WorkerRec) : w.redact.id = w.id := rfl

@[simp] theorem RequestRec.key_redact (r : RequestRec) : r.redact.key = r.key := rfl

theorem RequestRec.redact_of_public {r : RequestRec} (h : rpcScope r.scope = false) :
    r.redact = r := by
  simp [redact, h]

theorem RequestRec.redact_redact (r : RequestRec) : r.redact.redact = r.redact := by
  simp only [redact, RequestRec.mk.injEq, true_and, and_true]
  split <;> rfl

namespace Db

variable (db : Db)

theorem redact_redact : db.redact.redact = db.redact := by
  have hrequests : RequestRec.redact ∘ RequestRec.redact = RequestRec.redact :=
    funext RequestRec.redact_redact
  simp only [redact, List.map_map, hrequests]
  rfl

theorem redact_apply (w : Write) : (db.apply w).redact = db.redact.apply w.redact := by
  cases w with
  | insertWorker r | insertAttempt r | insertRequest r => simp [apply, redact, Write.redact]
  | putWorker r =>
      simp only [apply, redact, Write.redact]
      rw [Table.map_put_comm WorkerRec.id_redact]
  | putAttempt r =>
      simp only [apply, redact, Write.redact]
      rw [Table.map_put_comm AttemptRec.id_redact]
  | putRequest r =>
      simp only [apply, redact, Write.redact]
      rw [Table.map_put_comm RequestRec.key_redact]
  | insertJob r | putJob r | insertArtifact r | insertEvent r => rfl

theorem redact_applyAll (ws : List Write) :
    (db.applyAll ws).redact = db.redact.applyAll (ws.map Write.redact) := by
  induction ws generalizing db with
  | nil => rfl
  | cons w ws ih => simp [ih, redact_apply]

/-! ## Queries of the redacted database -/

theorem attempt?_redact (id : Uuid) :
    db.redact.attempt? id = (db.attempt? id).map AttemptRec.redact :=
  Table.find_map AttemptRec.id_redact ..

theorem request?_redact (scope id : String) :
    db.redact.request? scope id = (db.request? scope id).map RequestRec.redact :=
  Table.find_map RequestRec.key_redact ..

/-- A receipt outside the RPC interface is not redacted. -/
theorem request?_redact_of_public {scope : String} (h : rpcScope scope = false) (id : String) :
    db.redact.request? scope id = db.request? scope id := by
  rw [request?_redact]
  cases hrow : db.request? scope id with
  | none => rfl
  | some r =>
      have hscope : r.scope = scope := congrArg Prod.fst (Table.key_of_find hrow)
      rw [Option.map_some, RequestRec.redact_of_public (hscope ▸ h)]

theorem cancellable_redact (job : Uuid) :
    db.redact.cancellable db.redact job = (db.cancellable db job).map AttemptRec.redact := by
  have hread (rows : List AttemptRec) :
      (rows.map AttemptRec.redact).filterMap (fun a => (db.attempt? a.id).map AttemptRec.redact) =
        (rows.filterMap (fun a => db.attempt? a.id)).map AttemptRec.redact := by
    rw [List.filterMap_map, List.map_filterMap]
    rfl
  simp only [cancellable, attempt?_redact]
  simp only [redact, List.filter_map, hread]
  rfl

theorem attemptsOf_redact (job : Uuid) :
    (db.redact.attemptsOf job).map AttemptRec.listed
      = (db.attemptsOf job).map AttemptRec.listed := by
  simp only [attemptsOf, redact, List.filter_map, List.map_map]
  rfl

theorem used_redact (worker : String) : db.redact.used worker = db.used worker := by
  simp only [used, activeOn, redact, List.filter_map, List.filterMap_map]
  rfl

end Db

theorem Store.readRows_redact (db : Db) (job : Uuid) (limit offset : Nat) (kind : Store.RowKind) :
    Store.readRows db.redact job limit offset kind = Store.readRows db job limit offset kind := by
  cases kind with
  | attempts => simp only [Store.readRows, Db.attemptsOf_redact]
  | events | artifacts => rfl

theorem Store.workers_redact (db : Db) : Store.workers db.redact = Store.workers db := by
  have hsort : db.redact.workers.insertionSort (fun a b => a.id ≤ b.id) =
      (db.workers.insertionSort (fun a b => a.id ≤ b.id)).map WorkerRec.redact :=
    (List.map_insertionSort _ _ WorkerRec.redact _ (fun _ _ _ _ => Iff.rfl)).symm
  simp only [Store.workers, hsort, Db.used_redact, ← List.map_take, List.map_map]
  rfl

/-! ## Public statements -/

/-- The statements of the REST interface: none reads a worker, an attempt's token
or a receipt of the RPC interface. -/
def Stmt.Public : Stmt → Prop
  | .newID | .lockKey _ | .insertJob .. | .jobByKey _ | .insertEvent .. | .insertRequest ..
  | .lockJob _ | .jobByID _ | .cancelAttempts _ | .setJob .. => True
  | .lockRequest scope _ | .setResponse scope _ _ => rpcScope scope = false
  | _ => False

/-- What a statement returns, with its writes redacted. -/
def Stmt.shown (st : Stmt) (o : Oracle) (db : Db) : Except Err (st.Result × List Write) :=
  (st.eval o db db).map (fun p => (p.1, p.2.map Write.redact))

theorem Stmt.Public.shown_redact {st : Stmt} (h : st.Public) (o : Oracle) (db : Db) :
    st.shown o db.redact = st.shown o db := by
  cases st with
  | insertEvent job attempt kind payload =>
      simp only [Stmt.shown, Stmt.eval, Db.attempt?_redact, Option.isNone_map]
      rfl
  | insertRequest scope id hash =>
      simp only [Stmt.shown, Stmt.eval, Db.request?_redact, Option.isSome_map]
  | lockRequest scope id | setResponse scope id response =>
      simp only [Stmt.shown, Stmt.eval, Db.request?_redact_of_public db h]
  | cancelAttempts job =>
      simp only [Stmt.shown, Stmt.eval, Db.cancellable_redact, Except.map]
      congr 2
      apply List.ext_getElem <;> simp [Write.redact, AttemptRec.cancel, AttemptRec.redact]
  | newID | lockKey | insertJob | jobByKey | lockJob | jobByID | setJob => rfl
  | _ => exact h.elim

/-- Every statement of the program is public. -/
def Prog.Public {α : Type} (p : Prog α) : Prop := p.All Stmt.Public (fun _ => True)

/-- What a run returns, with the database it leaves redacted. -/
def Prog.shown {α : Type} (p : Prog α) (o : Nat → Oracle) (db : Db) : Except Err (α × Db) :=
  (p.run o db).map (fun r => (r.1, r.2.redact))

section Programs

variable {α β : Type}

/-- A public program runs alike in the redacted database. -/
theorem Prog.Public.shown_redact {p : Prog α} (h : p.Public) (o : Nat → Oracle) (db : Db) :
    p.shown o db.redact = p.shown o db := by
  induction p generalizing o db with
  | done a => simp only [Prog.shown, Prog.run, Except.map, Db.redact_redact]
  | fail e => rfl
  | exec st k ih =>
      have hstep := h.1.shown_redact (o 0) db
      simp only [Stmt.shown] at hstep
      simp only [Prog.shown, Prog.run]
      cases heval : st.eval (o 0) db db with
      | error e =>
          cases heval' : st.eval (o 0) db.redact db.redact with
          | error e' =>
              rw [heval, heval'] at hstep
              simpa [Except.map] using hstep
          | ok q =>
              rw [heval, heval'] at hstep
              simp [Except.map] at hstep
      | ok q =>
          cases heval' : st.eval (o 0) db.redact db.redact with
          | error e' =>
              rw [heval, heval'] at hstep
              simp [Except.map] at hstep
          | ok q' =>
              obtain ⟨r, ws⟩ := q
              obtain ⟨r', ws'⟩ := q'
              rw [heval, heval'] at hstep
              simp only [Except.map, Except.ok.injEq, Prod.mk.injEq] at hstep
              obtain ⟨rfl, hws⟩ := hstep
              have hstate : (db.redact.applyAll ws').redact = (db.applyAll ws).redact := by
                rw [Db.redact_applyAll, Db.redact_applyAll, Db.redact_redact, hws]
              have hk := ih r' (h.2 r') (fun n => o (n + 1))
              calc (k r').shown (fun n => o (n + 1)) (db.redact.applyAll ws')
                  = (k r').shown (fun n => o (n + 1)) (db.redact.applyAll ws').redact := (hk _).symm
                _ = (k r').shown (fun n => o (n + 1)) (db.applyAll ws).redact := by rw [hstate]
                _ = (k r').shown (fun n => o (n + 1)) (db.applyAll ws) := hk _

@[simp] theorem Prog.public_done (a : α) : (Prog.done a).Public := trivial

@[simp] theorem Prog.public_fail {e : Err} : (Prog.fail e : Prog α).Public := trivial

theorem Prog.Public.sql {st : Stmt} {f : st.Result → Prog β} (hst : st.Public)
    (hf : ∀ r, (f r).Public) : (sql st >>= f).Public := ⟨hst, hf⟩

theorem Prog.Public.bind {p : Prog α} {f : α → Prog β} (hp : p.Public) (hf : ∀ a, (f a).Public) :
    (p >>= f).Public :=
  Prog.All.bind hp hf

/-! ## The transactions of the endpoints -/

theorem Prog.Client.public {p : Prog α} (hp : p.Client) : p.Public := by
  refine hp.mono (fun st hclient => ?_) (fun _ _ => trivial)
  cases st <;> trivial

/-- The receipts of an action are kept outside the scopes of the RPC interface. -/
theorem rpcScope_actionScope (a : Action) : rpcScope (Store.actionScope a) = false := by
  have htext : (Store.actionScope a).toList = 'j' :: 'o' :: 'b' :: ':' :: a.text.toList := by
    simp [Store.actionScope]
  simp only [rpcScope, Text.startsWith, htext]
  rfl

variable [Sha256]

theorem mutate_public {scope : String} (hscope : rpcScope scope = false) (id : String)
    (payload : Json) {fn : Prog Response} (hfn : fn.Public) :
    (Store.mutate scope id payload fn).Public := by
  unfold Store.mutate
  split
  · simp
  refine .sql trivial (fun _ => .sql hscope (fun row => ?_))
  split
  · simp
  split
  · simp
  split
  · simp
  · exact hfn.bind (fun result => .sql hscope (fun _ => Prog.public_done _))

theorem act_public (a : Action) (id requestID : String) : (Rest.act a id requestID).Public := by
  unfold Rest.act
  split
  · simp
  · exact (mutate_public (rpcScope_actionScope a) _ _ (actionBody_client _ _ _).public).bind
      (fun _ => Prog.public_done _)

end Programs

/-! ## Noninterference -/

namespace Rest

/-- Two outcomes are the same but for the secrets of the databases. -/
def SameShown {α : Type} (x y : α × Db) : Prop := x.1 = y.1 ∧ x.2.redact = y.2.redact

theorem SameShown.trans {α : Type} {x y z : α × Db} (h : SameShown x y) (h' : SameShown y z) :
    SameShown x z := ⟨h.1.trans h'.1, h.2.trans h'.2⟩

theorem SameShown.symm {α : Type} {x y : α × Db} (h : SameShown x y) : SameShown y x :=
  ⟨h.1.symm, h.2.symm⟩

theorem commit_redact {α : Type} {p : Prog α} (hp : p.Public) (o : Nat → Oracle) (db : Db) :
    SameShown (commit p o db.redact) (commit p o db) := by
  have hrun := hp.shown_redact o db
  simp only [Prog.shown] at hrun
  unfold commit
  cases h : p.run o db with
  | error e =>
      cases h' : p.run o db.redact with
      | error e' =>
          rw [h, h'] at hrun
          simp only [Except.map, Except.error.injEq] at hrun
          exact ⟨by rw [hrun], db.redact_redact⟩
      | ok r' =>
          rw [h, h'] at hrun
          simp [Except.map] at hrun
  | ok r =>
      cases h' : p.run o db.redact with
      | error e' =>
          rw [h, h'] at hrun
          simp [Except.map] at hrun
      | ok r' =>
          rw [h, h'] at hrun
          simp only [Except.map, Except.ok.injEq, Prod.mk.injEq] at hrun
          exact ⟨congrArg Except.ok hrun.1, hrun.2⟩

variable [Sha256]

theorem handle_redact (x : Endpoint) (o : Nat → Oracle) (db : Db) :
    SameShown (handle o db.redact x) (handle o db x) := by
  cases x with
  | submit body =>
      cases body with
      | none => exact ⟨rfl, db.redact_redact⟩
      | some j =>
          refine commit_redact ((submit_client _).public.bind (fun rows => ?_)) o db
          cases rows <;> trivial
  | batch body =>
      cases body with
      | none => exact ⟨rfl, db.redact_redact⟩
      | some jobs =>
          exact commit_redact ((submit_client _).public.bind (fun rows => Prog.public_done _)) o db
  | list limit offset => exact ⟨rfl, db.redact_redact⟩
  | get id => exact ⟨rfl, db.redact_redact⟩
  | rows kind id limit offset =>
      refine ⟨?_, db.redact_redact⟩
      simp only [handle, readJob, Store.readRows_redact]
      rfl
  | cancel id requestID | retry id requestID => exact commit_redact (act_public _ _ _) o db
  | workers =>
      refine ⟨?_, db.redact_redact⟩
      simp only [handle, Store.workers_redact]

/-- Two databases that differ only in lease tokens, sessions and RPC receipts give
every request the same answer, and differ only in these again afterwards. -/
theorem serve_noninterference {db₁ db₂ : Db} (h : db₁.redact = db₂.redact) (x : Endpoint)
    (o : Nat → Oracle) :
    (serve x o db₁).1 = (serve x o db₂).1 ∧ (serve x o db₁).2.redact = (serve x o db₂).2.redact := by
  have h₁ := handle_redact x o db₁
  have h₂ := handle_redact x o db₂
  rw [h] at h₁
  obtain ⟨hanswer, hstate⟩ := h₁.symm.trans h₂
  exact ⟨congrArg reply hanswer, hstate⟩

end Rest

/-- The leased database with another session, lease token and lease receipt. -/
def Sample.twinDb : Db :=
  { Sample.leasedDb with
    workers := [{ Sample.worker with sessionID := "t" }]
    attempts := [{ Sample.attempt with leaseToken := Sample.jobID }]
    requests := [⟨"rpc:RegisterWorker:w", "1", "", some .registered, 2000⟩,
      ⟨"rpc:LeaseJob:w", "2", "", some .idle, 3000⟩] }

namespace Rest

theorem serve_noninterference_sample :
    Sample.leasedDb.redact = Sample.twinDb.redact ∧
      (@serve Sample.digest (.cancel Sample.jobID.text "5") (Sample.oracle 4000) Sample.leasedDb).1 =
        (@serve Sample.digest (.cancel Sample.jobID.text "5") (Sample.oracle 4000) Sample.twinDb).1 :=
  ⟨by decide +kernel,
    (@serve_noninterference Sample.digest _ _ (by decide +kernel)
      (.cancel Sample.jobID.text "5") (Sample.oracle 4000)).1⟩

end Rest

end Rungrid
