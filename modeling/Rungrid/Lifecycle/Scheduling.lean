-- SUMMARY: Placement decides exactly: an idle answer means that nothing fits, and a lease goes to the first fitting job.
import Rungrid.Base.Paging
import Rungrid.Lifecycle.Stability
import Rungrid.Lifecycle.Receipts

/-!
# Scheduling

`LeaseJob` filters the queued jobs by what the worker has left, sorts them by creation
time and id, and takes the first row that is not locked. Executed alone it skips no row,
so it answers idle exactly if no queued job fits in the sense of `Resources.Fits`, which
the code of placement never calls, and leases the least fitting job otherwise.
-/

namespace Rungrid

open Prog

/-! ## The order of the queue -/

instance : Std.Total JobRec.before where
  total _ _ := Paging.columns_total

instance : IsTrans JobRec JobRec.before where
  trans _ _ _ := Paging.columns_trans

/-- A queued job that fits what the worker has left. -/
structure Db.Fitting (db : Db) (w : WorkerRec) (j : JobRec) : Prop where
  stored : j ∈ db.jobs
  queued : j.state = .queued
  fits : j.resources.Fits (w.capacity.sub (db.used w.id))

section Queue

variable {db : Db} {w : WorkerRec} {j : JobRec}

/-- The columns of a stored job are valid, so the query asks what `Fits` asks. -/
theorem Db.WF.mem_placement (hwf : db.WF) :
    j ∈ db.placement (w.capacity.sub (db.used w.id)) ↔ db.Fitting w j := by
  rw [Db.placement, List.mem_insertionSort, List.mem_filter, JobRec.placeable, Bool.and_eq_true,
    decide_eq_true_eq, decide_eq_true_eq]
  constructor
  · rintro ⟨hj, hq, hle⟩
    have hstored := hwf.stored j hj
    exact ⟨hj, hq, hstored.resources ▸ hstored.valid.resources.1, hle⟩
  · rintro ⟨hj, hq, -, hle⟩
    exact ⟨hj, hq, hle⟩

/-- The first job of the queue is its least. -/
theorem Db.placement_head {limit : Resources} (h : (db.placement limit).head? = some j) :
    ∀ k ∈ db.placement limit, j.before k := by
  have hsorted := List.pairwise_insertionSort JobRec.before (db.jobs.filter (·.placeable limit))
  intro k hk
  rw [Db.placement] at h hk
  cases hlist : (db.jobs.filter (·.placeable limit)).insertionSort JobRec.before with
  | nil =>
      rw [hlist] at h
      cases h
  | cons x xs =>
      rw [hlist] at h hk hsorted
      obtain rfl := Option.some.inj h
      rcases List.mem_cons.mp hk with rfl | hk
      · exact .inr ⟨rfl, Nat.le_refl _⟩
      · exact (List.pairwise_cons.mp hsorted).1 k hk

/-- Without locks of others the query returns the first job. -/
theorem Db.WF.pickJob (hwf : db.WF) {o : Oracle} (ho : ∀ id, o.locked id = false)
    (limit : Resources) :
    (Stmt.pickJob limit).eval o db db = .ok ((db.placement limit).head?.map JobRec.row, []) := by
  have hfind : ∀ l : List JobRec, (∀ j ∈ l, j ∈ db.placement limit) →
      l.findSome? (fun j => if o.locked j.id then none else
        (db.job? j.id).filter (·.placeable limit)) = l.head? := by
    intro l hl
    cases l with
    | nil => rfl
    | cons j l =>
        have hj := hl j List.mem_cons_self
        rw [Db.placement, List.mem_insertionSort, List.mem_filter] at hj
        have hfound : db.job? j.id = some j := hwf.job_of_mem hj.1
        rw [List.findSome?_cons, ho, if_neg Bool.false_ne_true, hfound, Option.filter_some,
          if_pos hj.2, List.head?_cons]
  rw [Stmt.eval, hfind _ (fun _ h => h)]

end Queue

/-! ## The budget column -/

section Column

variable {db : Db}

/-- A statement stores no budget that does not fit its column. -/
theorem Stmt.job_written {st : Stmt} {o : Oracle} {r : st.Result} {ws : List Write}
    (hdb : ∀ j ∈ db.jobs, Int4 j.maxAttempts) (he : st.eval o db db = .ok (r, ws)) {j : JobRec}
    (hj : .insertJob j ∈ ws ∨ .putJob j ∈ ws) : Int4 j.maxAttempts := by
  cases st with
  | insertJob id def_ =>
      simp only [Stmt.eval] at he
      split_ifs at he with hnul hint hcheck hkey hid
      · cases he
        simp at hj
      · cases he
        obtain rfl : j = _ := by simpa using hj
        exact hint.2.2.2.1
  | setJob id state max =>
      simp only [Stmt.eval, reread_self] at he
      split_ifs at he with hint hcheck
      cases he
      cases hrow : db.job? id with
      | none => simp [updateRow, hrow] at hj
      | some row =>
          obtain rfl : j = _ := by simpa [updateRow, hrow] using hj
          exact hint
  | setJobState id state =>
      simp only [Stmt.eval, reread_self] at he
      cases he
      cases hrow : db.job? id with
      | none => simp [updateRow, hrow] at hj
      | some row =>
          obtain rfl : j = _ := by simpa [updateRow, hrow] using hj
          exact hdb row (Db.mem_of_job? hrow)
  | _ =>
      simp only [Stmt.eval] at he
      (repeat' split at he) <;> cases he <;> simp [updateRow] at hj

theorem Db.mem_jobs_applyAll {ws : List Write} {j : JobRec} (h : j ∈ (db.applyAll ws).jobs) :
    j ∈ db.jobs ∨ .insertJob j ∈ ws ∨ .putJob j ∈ ws := by
  induction ws generalizing db with
  | nil => exact .inl h
  | cons w ws ih =>
      rcases ih h with h | h
      · cases w with
        | insertJob k =>
            rcases List.mem_append.mp h with h | h
            · exact .inl h
            · rw [List.mem_singleton.mp h]
              exact .inr (.inl List.mem_cons_self)
        | putJob k =>
            rcases Table.mem_put.mp h with ⟨rfl, -⟩ | ⟨h, -⟩
            · exact .inr (.inr List.mem_cons_self)
            · exact .inl h
        | _ => exact .inl h
      · exact .inr (h.imp (List.mem_cons_of_mem w) (List.mem_cons_of_mem w))

theorem Reachable.budget_int4 [Sha256] (h : Reachable db) : ∀ j ∈ db.jobs, Int4 j.maxAttempts := by
  obtain ⟨cs, rfl⟩ := h
  have hempty : ∀ j ∈ Db.empty.jobs, Int4 j.maxAttempts := by simp [Db.empty]
  refine Machine.exec_inv (I := fun db => ∀ j ∈ db.jobs, Int4 j.maxAttempts) perform_transactional cs
    ?_ hempty
  intro c _ db res db' hdb hc
  refine (runs_of_run (P := fun _ => True) (fun _ => trivial) (perform_ok.mp hc)).inv
    (I := fun db => ∀ j ∈ db.jobs, Int4 j.maxAttempts) ?_ hdb
  intro st o d r ws hd heval j hj
  rcases Db.mem_jobs_applyAll hj with hj | hj
  · exact hd j hj
  · exact Stmt.job_written hd heval hj

end Column

/-! ## The transaction -/

section Lease

variable {db : Db} {s : Store} {r : Request} {w : WorkerRec} {cap : Resources} {j : JobRec}
  {o : Nat → Oracle}

theorem lease_idle (hwf : db.WF) (ho : ∀ n id, (o n).locked id = false)
    (h : db.placement (cap.sub (db.used r.workerID)) = []) :
    (s.lease r cap).run o db = .ok (.idle, db) := by
  have hpick : (Stmt.pickJob (cap.sub (db.used r.workerID))).eval (o 1) db db = .ok (none, []) := by
    rw [hwf.pickJob (ho 1), h]
    rfl
  have hsum : (Stmt.sumUsed r.workerID).eval (o 0) db db = .ok (db.used r.workerID, []) := rfl
  rw [Store.lease, run_sql_bind hsum, Db.applyAll_nil, run_sql_bind hpick]
  rfl

/-- A queued job is not held by an attempt, and its next number is not in use. -/
theorem Db.queued_free (hwf : db.WF) (hlog : db.Logged) (hj : j ∈ db.jobs) (hq : j.state = .queued)
    {id : Uuid} (hid : db.attempt? id = none) :
    db.attemptTaken id j.id (db.nextNumber j.id) = false := by
  rw [Bool.eq_false_iff]
  intro htaken
  obtain ⟨a, ha, htaken⟩ := List.any_eq_true.mp htaken
  simp only [Bool.or_eq_true, Bool.and_eq_true, decide_eq_true_eq] at htaken
  rcases htaken with rfl | ⟨hjob, hnumber | hact⟩
  · rw [hwf.attempt_of_mem ha] at hid
    cases hid
  · exact absurd hnumber (Db.lt_nextNumber ha hjob).ne
  · have hcoh := Db.jobCoherent (hlog.coherent hwf hj)
    have hactive := hcoh.active_iff.mp ⟨a, Db.mem_attemptsOf.mpr ⟨ha, hjob⟩, hact⟩
    rw [hq] at hactive
    cases hactive

theorem lease_first (hwf : db.WF) (hlog : db.Logged) (hint : ∀ j ∈ db.jobs, Int4 j.maxAttempts)
    (ho : ∀ n id, (o n).locked id = false) (hids : ∀ n, db.attempt? (Uuid.ID (o n).rand) = none)
    (hw : db.worker? r.workerID = some w)
    (htext : Text.hasNul r.requestID = false ∧ Text.hasNul r.workerID = false)
    (h : (db.placement (cap.sub (db.used r.workerID))).head? = some j) :
    ∃ l db', (s.lease r cap).run o db = .ok (.lease l, db') ∧
      Granted (fun x => ∃ n, x = o n) s db r cap l db' ∧ l.job.id = j.id := by
  have hmem : j ∈ db.placement (cap.sub (db.used r.workerID)) := List.mem_of_mem_head? h
  rw [Db.placement, List.mem_insertionSort, List.mem_filter] at hmem
  obtain ⟨hj, hplace⟩ := hmem
  have hq : j.state = .queued := by
    simp only [JobRec.placeable, Bool.and_eq_true, decide_eq_true_eq] at hplace
    exact hplace.1
  have hfound := hwf.job_of_mem hj
  have hbudget := Db.next_le_budget (hlog.coherent hwf hj) hq
  have hpos : 0 < db.nextNumber j.id := by
    have hnil : (0 : Int) ≤ ((db.attemptsOf j.id).map AttemptRec.attemptNumber).foldr max 0 := by
      induction (db.attemptsOf j.id).map AttemptRec.attemptNumber with
      | nil => exact le_refl _
      | cons n l ih => exact ih.trans (le_max_right _ _)
    exact Int.lt_add_one_of_le hnil
  have hnumber : Int4 (db.nextNumber j.id) := ⟨by omega, hbudget.trans (hint j hj).2⟩
  have hfree := Db.queued_free hwf hlog hj hq (hids 2)
  have hpick : (Stmt.pickJob (cap.sub (db.used r.workerID))).eval (o 1) db db
      = .ok (some j.row, []) := by
    rw [hwf.pickJob (ho 1), h]
    rfl
  let row : AttemptRec := newAttempt (Uuid.ID (o 2).rand) j.id (db.nextNumber j.id) r.workerID
    (Uuid.ID (o 3).rand) s.leaseSeconds j.definition.timeoutSeconds (o 4)
  have hinsert : (Stmt.insertAttempt (Uuid.ID (o 2).rand) j.id r.workerID (Uuid.ID (o 3).rand)
      s.leaseSeconds j.definition.timeoutSeconds).eval (o 4) db db
      = .ok ((db.nextNumber j.id, row.leaseExpiresAt, (o 4).clock 3), [.insertAttempt row]) := by
    simp [Stmt.eval, hnumber, hfree, hfound, hw, row]
  have hsum : (Stmt.sumUsed r.workerID).eval (o 0) db db = .ok (db.used r.workerID, []) := rfl
  have hnew : ∀ n, Stmt.newID.eval (o n) db db = .ok (Uuid.ID (o n).rand, []) := fun _ => rfl
  have hjob : (db.apply (.insertAttempt row)).job? j.id = some j := hfound
  have hset : (Stmt.setJobState j.id .leased).eval (o 5) (db.apply (.insertAttempt row))
      (db.apply (.insertAttempt row)) = .ok ((), [.putJob (j.setState .leased ((o 5).clock 0))]) := by
    simp [Stmt.eval, hjob]
  let held : Db := (db.apply (.insertAttempt row)).apply (.putJob (j.setState .leased ((o 5).clock 0)))
  have hcheck : (Stmt.checkpoint j.id).eval (o 6) held held
      = .ok ((db.newestCheckpoint j.id).map ArtifactRec.artifact, []) := rfl
  have hstored : held.job? j.id = some (j.setState .leased ((o 5).clock 0)) :=
    Db.job?_putJob hjob rfl
  have hattempt : held.attempt? (Uuid.ID (o 2).rand) = some row := by
    have hnone : db.attempt? row.id = none := hids 2
    exact Table.find_append_self hnone
  have hevent : (Stmt.insertEvent j.id (some (Uuid.ID (o 2).rand)) .leased
      (.leased r.requestID r.workerID (db.nextNumber j.id))).eval (o 7) held held
      = .ok ((), [.insertEvent (db.newEvent (o 7) j.id (some (Uuid.ID (o 2).rand)) .leased
        (.leased r.requestID r.workerID (db.nextNumber j.id)))]) := by
    simp only [Stmt.eval, EventPayload.hasNul, htext, hstored, hattempt, Option.any_some,
      Option.isNone_some, Bool.or_self, Bool.false_eq_true, ↓reduceIte]
    rfl
  have hrun : (s.lease r cap).run o db = .ok (.lease ⟨{ j.row with state := .leased },
      Uuid.ID (o 2).rand, db.nextNumber j.id, Uuid.ID (o 3).rand, row.leaseExpiresAt,
      (o 4).clock 3, (db.newestCheckpoint j.id).map ArtifactRec.artifact⟩,
      held.apply (.insertEvent (db.newEvent (o 7) j.id (some (Uuid.ID (o 2).rand)) .leased
        (.leased r.requestID r.workerID (db.nextNumber j.id))))) := by
    rw [Store.lease, run_sql_bind hsum, Db.applyAll_nil, run_sql_bind hpick, Db.applyAll_nil]
    dsimp only [JobRec.row]
    rw [run_sql_bind (hnew 2), Db.applyAll_nil, run_sql_bind (hnew 3), Db.applyAll_nil,
      run_sql_bind hinsert, Db.applyAll_cons, Db.applyAll_nil]
    dsimp only
    rw [if_neg (Int.not_lt.mpr hbudget), run_sql_bind hset, Db.applyAll_cons, Db.applyAll_nil,
      run_sql_bind hcheck, Db.applyAll_nil, Store.event, run_sql_bind hevent]
    rfl
  exact ⟨_, _, hrun, .mk hfound hplace hfree hbudget ⟨4, rfl⟩ ⟨5, rfl⟩ ⟨7, rfl⟩, rfl⟩

end Lease

/-! ## The call -/

/-- A `LeaseJob` of the worker's session, executed alone: the request is admitted and has no
receipt, no other transaction holds a lock, and the generated ids are not in use. -/
structure Call.Asks (c : Call) (db : Db) (w : WorkerRec) (r : Request) : Prop where
  op : c.op = .rpc .leaseJob r
  worker : r.workerID = w.id
  session : r.sessionID = w.sessionID
  ids : Store.idsOk r = true
  admitted : Admitted (Store.rpcScope .leaseJob r) r.requestID
  fresh : db.request? (Store.rpcScope .leaseJob r) r.requestID = none
  alone : ∀ n id, (c.oracle n).locked id = false
  unused : ∀ n, db.attempt? (Uuid.ID (c.oracle n).rand) = none

/-- The lease `l` that the worker gets in `db`: it goes to the least fitting job `j`, and
nothing changes about other jobs and attempts. -/
structure Db.Leases (db db' : Db) (w : WorkerRec) (j : JobRec) (l : Lease) : Prop where
  fitting : db.Fitting w j
  least : ∀ k, db.Fitting w k → j.before k
  job : l.job.id = j.id
  number : l.attemptNumber = (db.attemptsOf j.id).length + 1
  attempts : ∃ a, db'.attempts = db.attempts ++ [a] ∧ a.id = l.attemptID ∧ a.jobID = j.id ∧
    a.attemptNumber = l.attemptNumber ∧ a.workerID = w.id ∧ a.state = .leased
  jobs : ∃ t, db'.jobs = Table.put JobRec.id (j.setState .leased t) db.jobs

section Calls

variable {db : Db} {c : Call} {w : WorkerRec} {r : Request}

/-- The body of the call runs `lease` on the tables as they are, but for the worker's
heartbeat and the receipt. -/
theorem Call.Asks.body (h : c.Asks db w r) (hw : db.worker? w.id = some w)
    (hact : w.state = .active) (rs : List RequestRec) (o : Nat → Oracle) :
    (c.server.rpcBody .leaseJob r).run o (db.withRequests rs) =
      (c.server.lease r w.capacity).run (fun n => o (n + 2))
        ((db.withRequests rs).apply (.putWorker { w with lastHeartbeatAt := (o 1).clock 0 })) := by
  have hfound : (db.withRequests rs).worker? r.workerID = some w := h.worker ▸ hw
  have hlock : (Stmt.lockWorker r.workerID).eval (o 0) (db.withRequests rs) (db.withRequests rs)
      = .ok (some w, []) := by
    simp [Stmt.eval, hfound]
  have htouch : (Stmt.touchWorker r.workerID).eval (o 1) (db.withRequests rs) (db.withRequests rs)
      = .ok ((), [.putWorker { w with lastHeartbeatAt := (o 1).clock 0 }]) := by
    simp [Stmt.eval, hfound]
  have hbody : c.server.rpcBody .leaseJob r = c.server.workerBody .leaseJob r := rfl
  rw [hbody, Store.workerBody, run_sql_bind hlock, Db.applyAll_nil]
  dsimp only
  rw [if_neg (not_not.mpr h.session.symm), run_sql_bind htouch, if_neg (not_not.mpr hact)]
  rfl

theorem Text.scope_worker (h : Admitted (Store.rpcScope .leaseJob r) r.requestID) :
    Text.hasNul r.requestID = false ∧ Text.hasNul r.workerID = false := by
  refine ⟨h.idText, ?_⟩
  have hscope := h.scopeText
  rw [Store.rpcScope, Text.hasNul_append, Bool.or_eq_false_iff] at hscope
  exact hscope.2

/-- What is leased is the first job of the queue. -/
theorem Granted.leases {P : Oracle → Prop} {s : Store} {db' : Db} {j : JobRec} {l : Lease}
    (h : Granted P s db r w.capacity l db') (hwf : db.WF) (hlog : db.Logged)
    (hworker : r.workerID = w.id) (hjob : l.job.id = j.id)
    (hhead : (db.placement (w.capacity.sub (db.used w.id))).head? = some j) :
    db.Leases db' w j l := by
  have hmem := hwf.mem_placement.mp (List.mem_of_mem_head? hhead)
  cases h with
  | @mk k id token o oj oe hk _ _ _ _ _ _ =>
      obtain rfl : k = j := by
        have hj := hwf.job_of_mem hmem.stored
        rw [← show k.id = j.id from hjob, hk] at hj
        exact Option.some.inj hj
      refine ⟨hmem, fun i hi => ?_, rfl, ?_, ⟨_, rfl, rfl, rfl, rfl, hworker, rfl⟩, ⟨_, rfl⟩⟩
      · exact Db.placement_head hhead i (hwf.mem_placement.mpr hi)
      · exact Db.nextNumber_eq (hlog.coherent hwf hmem.stored)

/-- The answer to a worker that asks for work. -/
theorem Call.Asks.answer [Sha256] (h : c.Asks db w r) (hreach : Reachable db) (hw : w ∈ db.workers)
    (hact : w.state = .active) :
    (∃ db', perform c db = (.ok (.response .idle), db') ∧ (∀ j, ¬ db.Fitting w j) ∧
      db'.jobs = db.jobs ∧ db'.attempts = db.attempts) ∨
    ∃ db' j l, perform c db = (.ok (.response (.lease l)), db') ∧ db.Leases db' w j l := by
  have hplaceable := hreach.placeable
  have hfound : db.worker? w.id = some w := hplaceable.wf.workers.find_of_mem hw
  obtain ⟨server, op, o⟩ := c
  obtain rfl : op = .rpc .leaseJob r := h.op
  let rs := db.requests ++ [⟨Store.rpcScope .leaseJob r, r.requestID, Sha256.hex r.toJson.marshal,
    none, (o 0).clock 0⟩]
  -- The state `lease` sees: its jobs and attempts are those of `db`.
  let seen : Db := (db.withRequests rs).apply (.putWorker { w with lastHeartbeatAt := (o 3).clock 0 })
  have htouched : Effect (fun _ => True) server (db.withRequests rs) (.touched w.id) seen :=
    .touched hfound trivial
  have hseen : seen.Placeable := (hplaceable.withRequests rs).effect htouched
  have hwseen : seen.worker? r.workerID = some { w with lastHeartbeatAt := (o 3).clock 0 } := by
    rw [h.worker]
    exact Db.worker?_putWorker hfound rfl
  have hbody := h.body hfound hact rs (fun n => o (n + 2))
  cases hhead : (db.placement (w.capacity.sub (db.used w.id))).head? with
  | none =>
      left
      have hnil : seen.placement (w.capacity.sub (seen.used r.workerID)) = [] := by
        rw [h.worker]
        exact List.head?_eq_none_iff.mp hhead
      have hidle := lease_idle (s := server) (o := fun n => o (n + 2 + 2)) hseen.wf
        (fun n id => h.alone _ id) hnil
      obtain ⟨rs', hperform⟩ := perform_answered h.ids h.admitted h.fresh (hbody.trans hidle)
      refine ⟨_, hperform, fun j hj => ?_, rfl, rfl⟩
      have hmem := hplaceable.wf.mem_placement.mpr hj
      rw [List.head?_eq_none_iff.mp hhead] at hmem
      cases hmem
  | some j =>
      right
      have hfirst : (seen.placement (w.capacity.sub (seen.used r.workerID))).head? = some j := by
        rw [h.worker]
        exact hhead
      obtain ⟨l, mid, hrun, hgranted, hjob⟩ := lease_first (s := server)
        (o := fun n => o (n + 2 + 2)) hseen.wf hseen.logged hreach.budget_int4
        (fun n id => h.alone _ id) (fun n => h.unused _) hwseen (Text.scope_worker h.admitted) hfirst
      obtain ⟨rs', hperform⟩ := perform_answered h.ids h.admitted h.fresh (hbody.trans hrun)
      have hleases := hgranted.leases (w := w) hseen.wf hseen.logged h.worker hjob hhead
      refine ⟨_, j, l, hperform, { hleases with fitting := ?_, least := fun k hk => ?_ }⟩
      · exact { hleases.fitting with }
      · exact hleases.least k { hk with }

end Calls

/-- In every reachable state a `LeaseJob` of an active worker, executed alone, answers idle
exactly if no queued job fits what the worker has left. Otherwise it leases the fitting job
with the least creation time and id, as its next attempt, and changes no other job or
attempt. The place of a job in this order never changes. -/
theorem placement_exact [Sha256] (db : Db) (hreach : Reachable db) (w : WorkerRec)
    (hw : w ∈ db.workers) (hact : w.state = .active) (c : Call) (r : Request)
    (h : c.Asks db w r) :
    ((perform c db).1 = .ok (.response .idle) ↔ ∀ j, ¬ db.Fitting w j) ∧
    ((∃ j, db.Fitting w j) → ∃ j l, (perform c db).1 = .ok (.response (.lease l)) ∧
      db.Leases (perform c db).2 w j l) ∧
    (∀ j ∈ db.jobs, ∀ cs, ∃ j', (exec cs db).job? j.id = some j' ∧ j'.createdAt = j.createdAt) := by
  refine ⟨?_, ?_, fun j hj cs => ?_⟩
  · rcases h.answer hreach hw hact with ⟨db', hperform, hnone, -⟩ | ⟨db', j, l, hperform, hleases⟩
    · simp [hperform, hnone]
    · rw [hperform]
      constructor
      · intro hidle
        cases hidle
      · intro hnone
        exact absurd hleases.fitting (hnone j)
  · rintro ⟨j, hj⟩
    rcases h.answer hreach hw hact with ⟨db', -, hnone, -⟩ | ⟨db', j, l, hperform, hleases⟩
    · exact absurd hj (hnone j)
    · rw [hperform]
      exact ⟨j, l, rfl, hleases⟩
  · have hfound := hreach.logged.1.wf.job_of_mem hj
    obtain ⟨j', hj', hf⟩ := (exec_settles hreach cs).grows.job hfound
    have hcreated : j'.fixed.createdAt = j.fixed.createdAt := congrArg JobRec.createdAt hf
    exact ⟨j', hj', hcreated⟩

namespace Sample

/-- A job that the worker has no room for. -/
def large : Job := { job with idempotencyKey := "large", resources := ⟨4, 64, 0⟩ }

def later : Job := { job with idempotencyKey := "later" }

/-- Three jobs are submitted, the first of them too large. -/
def queued : List Call :=
  [⟨server, .submit [large, job], oracle 1000⟩, ⟨server, .submit [later], oracle 1500⟩, registerCall]

def largeRow : JobRec := large.newRow (Uuid.ID 1002) (oracle 1000 3)

def firstRow : JobRec := job.newRow (Uuid.ID 1006) (oracle 1000 7)

def laterRow : JobRec := later.newRow (Uuid.ID 1501) (oracle 1500 2)

/-- The worker before its first request. -/
def waiting : WorkerRec := register.newWorker (oracle 2000 2)

def queuedDb : Db where
  jobs := [largeRow, firstRow, laterRow]
  workers := [waiting]
  attempts := []
  artifacts := []
  events := [⟨1, Uuid.ID 1002, none, .submitted, .empty, 1050⟩,
    ⟨2, Uuid.ID 1006, none, .submitted, .empty, 1090⟩, ⟨3, Uuid.ID 1501, none, .submitted, .empty, 1540⟩]
  requests := leasedDb.requests.take 1

theorem queued_reachable : @Reachable digest queuedDb := ⟨queued, by decide +kernel⟩

/-- The first job does not fit, and the others are in order. -/
theorem queued_least {j : JobRec} (hj : queuedDb.Fitting waiting j)
    (hleast : ∀ k, queuedDb.Fitting waiting k → j.before k) : j = firstRow := by
  have hfirst : queuedDb.Fitting waiting firstRow := ⟨by simp [queuedDb], rfl, by decide⟩
  have hstored := hj.stored
  simp only [queuedDb, List.mem_cons, List.not_mem_nil, or_false] at hstored
  rcases hstored with rfl | rfl | rfl
  · exact absurd hj.fits (by decide)
  · rfl
  · exact absurd (hleast _ hfirst) (by decide)

end Sample

/-- The worker of the sample run asks again while its only job is leased. Of three queued
jobs the second is leased: the first is too large, and the third is younger. -/
theorem placement_exact_sample :
    (@perform Sample.digest ⟨Sample.server, .rpc .leaseJob { Sample.register with requestID := "3" },
      fun n => { Sample.oracle 4000 n with rand := 4000 }⟩ Sample.leasedDb).1
        = .ok (.response .idle) ∧
    ∃ l, (@perform Sample.digest Sample.leaseCall Sample.queuedDb).1 = .ok (.response (.lease l)) ∧
      l.job.id = Sample.firstRow.id := by
  refine ⟨?_, ?_⟩
  · have hunused : Sample.leasedDb.attempt? (Uuid.ID 4000) = none := by decide
    refine (@placement_exact Sample.digest Sample.leasedDb Sample.leased_reachable Sample.worker
      (by simp [Sample.leasedDb]) rfl _ { Sample.register with requestID := "3" } ?_).1.mpr ?_
    · exact ⟨rfl, rfl, rfl, by decide, ⟨by decide, by decide, by decide, by decide⟩, by decide,
        fun _ _ => rfl, fun _ => hunused⟩
    · intro j hj
      have hstored := hj.stored
      simp only [Sample.leasedDb, List.mem_singleton] at hstored
      have hq := hj.queued
      rw [hstored] at hq
      cases hq
  · obtain ⟨j, l, hlease, hleases⟩ := (@placement_exact Sample.digest Sample.queuedDb
      Sample.queued_reachable Sample.waiting (by simp [Sample.queuedDb]) rfl Sample.leaseCall
      { Sample.register with requestID := "2" } ⟨rfl, rfl, rfl, by decide, ⟨by decide, by decide, by decide,
        by decide⟩, by decide, fun _ _ => rfl, fun _ => rfl⟩).2.1 ⟨Sample.firstRow, by simp [Sample.queuedDb],
          rfl, by decide⟩
    exact ⟨l, hlease, hleases.job.trans (congrArg JobRec.id (Sample.queued_least hleases.fitting hleases.least))⟩

end Rungrid
