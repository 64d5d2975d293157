-- SUMMARY: The long poll of `LeaseJob`: no lease could have been granted in a state that it lets pass.
import Rungrid.Api.Grpc
import Rungrid.Lifecycle.Checkpoints

/-!
# The long poll

`WorkerServer.call` does not try to lease at every tick of its wait. It asks whether any
job is queued or the request has a receipt, and calls the store only then or at the
deadline. The servers go on between two ticks. `dss` are the calls they execute after
each of the queries, and as many ticks pass before the deadline.
-/

namespace Rungrid

namespace Grpc

/-! ## The loop -/

/-- `SELECT EXISTS(SELECT 1 FROM jobs WHERE state='QUEUED') OR EXISTS(SELECT 1 FROM requests
WHERE scope=$1 AND request_id=$2)`. -/
def pollQuery (db : Db) (r : Request) : Bool :=
  db.jobs.any (fun j => j.state = .queued) || (db.request? ("rpc:LeaseJob:" ++ r.workerID) r.requestID).isSome

section Loop

variable [Sha256]

/-- How the turns of the wait end. -/
def pollTurns (r : Request) : List (List Call) → Db → List Turn
  | [], db => [if pollQuery db r then .found else .deadline]
  | ds :: dss, db => if pollQuery db r then [.found] else .tick :: pollTurns r dss (exec ds db)

/-- The state in which the wait ends. -/
def waited (r : Request) : List (List Call) → Db → Db
  | [], db => db
  | ds :: dss, db => if pollQuery db r then db else waited r dss (exec ds db)

/-- The states in which the wait went on. -/
def passed (r : Request) : List (List Call) → Db → List Db
  | [], _ => []
  | ds :: dss, db => if pollQuery db r then [] else db :: passed r dss (exec ds db)

/-- The wait leads to the call of the store. -/
theorem poll_pollTurns (r : Request) (dss : List (List Call)) (db : Db) : poll (pollTurns r dss db) = none := by
  induction dss generalizing db with
  | nil =>
      unfold pollTurns
      split <;> rfl
  | cons ds dss ih =>
      unfold pollTurns
      split
      · rfl
      · exact ih (exec ds db)

theorem passed_spec {r : Request} {dss : List (List Call)} {db seen : Db} (h : Reachable db)
    (hseen : seen ∈ passed r dss db) : Reachable seen ∧ pollQuery seen r = false := by
  induction dss generalizing db with
  | nil => cases hseen
  | cons ds dss ih =>
      unfold passed at hseen
      split at hseen
      · cases hseen
      · rename_i hnot
        rcases List.mem_cons.mp hseen with rfl | hseen
        · exact ⟨h, Bool.eq_false_of_not_eq_true hnot⟩
        · exact ih (h.exec ds) hseen

/-! ## What the query decides -/

omit [Sha256] in
theorem rpcScope_leaseJob (r : Request) : Store.rpcScope .leaseJob r = "rpc:LeaseJob:" ++ r.workerID := by
  have hliteral : "rpc:" ++ Method.text .leaseJob ++ ":" = "rpc:LeaseJob:" := by decide
  rw [Store.rpcScope, hliteral]

theorem passed_of_pollQuery {r : Request} {db : Db} (h : pollQuery db r = true) (dss : List (List Call)) :
    passed r dss db = [] := by
  cases dss with
  | nil => rfl
  | cons ds dss => rw [passed, if_pos h]

/-- A lease is granted only where the query finds something. -/
theorem pollQuery_of_lease {c : Call} {r : Request} {db : Db} {l : Lease} (h : Reachable db)
    (hop : c.op = .rpc .leaseJob r) (hres : (perform c db).1 = .ok (.response (.lease l))) :
    pollQuery db r = true := by
  unfold pollQuery
  rw [Bool.or_eq_true, ← rpcScope_leaseJob]
  cases hreceipt : db.request? (Store.rpcScope .leaseJob r) r.requestID with
  | some row => exact .inr rfl
  | none =>
      -- Without a receipt the lease is a new one, and its job is queued.
      obtain ⟨w, o, rs, rs', mid, -, -, hgrant, -⟩ := perform_lease (P := fun _ => True) hop
        (fun _ => trivial) h.logged.1 hreceipt (Prod.ext hres rfl)
      cases hgrant with
      | @mk j _ _ _ _ _ hj hplace =>
          rw [JobRec.placeable, Bool.and_eq_true] at hplace
          exact .inl (List.any_eq_true.mpr ⟨j, Db.mem_of_job? hj, hplace.1⟩)

end Loop

end Grpc

/-- The long poll leads to one call of the store, and no server could have granted the lease
in a state that the poll let pass. A request that was answered before does not wait. -/
theorem long_poll_exact [Sha256] (db : Db) (h : Reachable db) (r : Request) (dss : List (List Call)) :
    (∀ s e o, e.request = some r →
      Grpc.call s .leaseJob e (Grpc.pollTurns r dss db) o (Grpc.waited r dss db)
        = Grpc.call s .leaseJob { e with waitSeconds := 0 } [] o (Grpc.waited r dss db)) ∧
      (∀ seen ∈ Grpc.passed r dss db, ∀ s o l,
        (perform ⟨s, .rpc .leaseJob r, o⟩ seen).1 ≠ .ok (.response (.lease l))) ∧
      ((Op.rpc .leaseJob r).fresh db = false → Grpc.passed r dss db = []) := by
  refine ⟨fun s e o hr => ?_, fun seen hseen s o l hres => ?_, fun hreceipt => ?_⟩
  · have hwait : Grpc.wait .leaseJob e (Grpc.pollTurns r dss db) = none := by
      unfold Grpc.wait
      split
      · exact Grpc.poll_pollTurns r dss db
      · rfl
    have hnowait : Grpc.wait .leaseJob { e with waitSeconds := 0 } [] = none := rfl
    have hsame : Grpc.Envelope.request { e with waitSeconds := 0 } = some r := hr
    rw [Grpc.call_eq hr hwait, Grpc.call_eq hsame hnowait]
  · obtain ⟨hreach, hnone⟩ := Grpc.passed_spec h hseen
    have hfound := Grpc.pollQuery_of_lease hreach rfl hres
    rw [hnone] at hfound
    cases hfound
  · refine Grpc.passed_of_pollQuery ?_ dss
    rw [Grpc.pollQuery, Bool.or_eq_true, ← Grpc.rpcScope_leaseJob]
    simp only [Op.fresh, Op.key, Option.all_some] at hreceipt
    exact .inr (by simpa using hreceipt)

/-- While the only job is leased, a worker that asks for another waits. -/
theorem long_poll_exact_leased :
    Sample.leasedDb ∈ @Grpc.passed Sample.digest (Sample.request "9") [[Sample.startCall]] Sample.leasedDb ∧
      ∀ s o l, (@perform Sample.digest ⟨s, .rpc .leaseJob (Sample.request "9"), o⟩ Sample.leasedDb).1
        ≠ .ok (.response (.lease l)) := by
  have hquery : Grpc.pollQuery Sample.leasedDb (Sample.request "9") = false := by decide +kernel
  have hpassed : Sample.leasedDb ∈
      @Grpc.passed Sample.digest (Sample.request "9") [[Sample.startCall]] Sample.leasedDb := by
    simp [Grpc.passed, hquery]
  exact ⟨hpassed, (@long_poll_exact Sample.digest Sample.leasedDb Sample.leased_reachable
    (Sample.request "9") [[Sample.startCall]]).2.1 Sample.leasedDb hpassed⟩

end Rungrid
