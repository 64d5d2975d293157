-- SUMMARY: What a report without artifacts is answered with: the errors its form leaves, and the result of a failed attempt.
import Rungrid.Lifecycle.Admission
import Rungrid.Lifecycle.Coherence
import Rungrid.Lifecycle.Workers

/-!
# Answers to reports

A report without artifacts whose form passes every check fails for what is stored or
for its data only. For a running attempt with a live lease the data alone decide, and
a `FailAttempt` that is accepted has recorded the failure.
-/

namespace Rungrid

open Prog

/-! ## The errors that remain -/

/-- The errors that are not about the form of a request, a budget or a generated id. -/
def Err.settled : Err → Bool
  | .conflict _ | .notFound => true
  | .db e => e ≠ .unique
  | _ => false

/-- The statement does not insert a row under a generated id. -/
def Stmt.keyless : Stmt → Bool
  | .insertJob .. | .insertAttempt .. | .insertArtifact .. => false
  | _ => true

theorem Stmt.keyless_error {st : Stmt} {o : Oracle} {snap cur : Db} {e : Err}
    (h : st.keyless = true) (he : st.eval o snap cur = .error e) : e.settled = true := by
  cases st with
  | insertJob | insertAttempt | insertArtifact => cases h
  | _ =>
      simp only [Stmt.eval] at he
      (repeat' split at he) <;> cases he <;> rfl

/-- A report without artifacts that passes the checks of its form. -/
structure Request.Formed (m : Method) (r : Request) : Prop where
  reports : m.reports = true
  ids : Store.idsOk r = true
  nonempty : r.requestID ≠ ""
  short : r.requestID.utf8ByteSize ≤ 256
  attempt : (Uuid.parse r.attemptID).isSome = true
  token : (Uuid.parse r.leaseToken).isSome = true
  report : Store.reportOk r = true
  bare : r.artifacts.elems = []
  exit : m = .completeAttempt → r.exitCode = 0

abbrev Prog.Settled {α : Type} (p : Prog α) : Prop :=
  p.All (fun st => st.keyless = true) (fun e => e.settled = true)

section Settled

variable {α : Type} {m : Method} {r : Request} {s : Store}

theorem settled_sql {st : Stmt} {f : st.Result → Prog α} (hst : st.keyless = true)
    (hf : ∀ x, (f x).Settled) : (sql st >>= f).Settled :=
  ⟨hst, hf⟩

theorem accept_settled (job attempt : Uuid) : (Store.accept m r job attempt).Settled :=
  settled_sql rfl (fun _ => trivial)

theorem finish_settled (job attempt : Uuid) (state : AttemptState) (next : JobState) :
    (Store.finish m r job attempt state next).Settled :=
  settled_sql rfl (fun _ => settled_sql rfl (fun _ => accept_settled job attempt))

theorem attemptBody_settled (h : r.Formed m) (j : JobRow) (attempt : Uuid) (c : AttemptCheck) :
    (s.attemptBody m r j attempt c).Settled := by
  have hbody : ∀ {k : Unit → Prog Response}, (k ()).Settled →
      (if c.state ≠ .running then .fail (.conflict none)
        else if !Store.reportOk r then .fail (.invalid none)
        else Store.recordArtifacts (Store.keyScope j.definition j.id r.attemptID) j.id attempt
          r.artifacts.elems >>= k : Prog Response).Settled := by
    intro k hk
    rw [h.bare, h.report]
    split
    · rfl
    · exact hk
  have hm := h.reports
  cases m with
  | reportProgress => exact hbody (accept_settled j.id attempt)
  | completeAttempt =>
      refine hbody ?_
      dsimp only
      rw [if_neg (not_not.mpr (h.exit rfl))]
      exact finish_settled j.id attempt _ _
  | failAttempt => exact hbody (finish_settled j.id attempt _ _)
  | _ => cases hm

theorem attempt_settled (h : r.Formed m) : (s.attempt m r).Settled := by
  obtain ⟨id, hid⟩ := Option.isSome_iff_exists.mp h.attempt
  obtain ⟨token, htoken⟩ := Option.isSome_iff_exists.mp h.token
  unfold Store.attempt
  rw [hid, htoken]
  refine settled_sql rfl (fun owner => ?_)
  split
  · rfl
  refine settled_sql rfl (fun row => ?_)
  split
  · rfl
  refine settled_sql rfl (fun checked => ?_)
  split
  · rfl
  split
  · rfl
  · exact attemptBody_settled h _ _ _

theorem rpcBody_settled (h : r.Formed m) : (s.rpcBody m r).Settled := by
  have hm := h.reports
  have hbody : (s.workerBody m r).Settled := by
    refine settled_sql rfl (fun row => ?_)
    split
    · rfl
    split
    · rfl
    refine settled_sql rfl (fun _ => ?_)
    cases m <;> first | exact attempt_settled h | cases hm
  cases m <;> first | exact hbody | cases hm

theorem rpc_settled [Sha256] (h : r.Formed m) : (s.rpc m r).Settled := by
  unfold Store.rpc
  rw [if_neg (by simp [h.ids])]
  unfold Store.mutate
  rw [if_neg (not_or.mpr ⟨h.nonempty, not_lt.mpr h.short⟩)]
  refine settled_sql rfl (fun _ => settled_sql rfl (fun row => ?_))
  split
  · rfl
  split
  · rfl
  split
  · trivial
  · exact All.bind (rpcBody_settled h) (fun _ => settled_sql rfl (fun _ => trivial))

/-- What such a report can fail with. -/
theorem perform_settled [Sha256] {c : Call} {db : Db} {e : Err} (hop : c.op = .rpc m r)
    (h : r.Formed m) (he : (perform c db).1 = .error e) : e.settled = true := by
  have hprog : (c.op.prog c.server).Settled := by
    rw [hop]
    exact All.bind (rpc_settled h) (fun _ => trivial)
  unfold perform at he
  split at he
  · cases he
  · rename_i e' hrun
    cases he
    exact (All.safe hprog (fun _ hst _ _ _ heval => Stmt.keyless_error hst heval) db).error hrun

end Settled

/-! ## Accepted reports -/

section Accepted

variable {P : Oracle → Prop} {db db' : Db} {m : Method} {r : Request} {s : Store}

theorem attemptBody_reportOk {j : JobRow} {attempt : Uuid} {c : AttemptCheck} {res : Response}
    (hm : m.reports = true) (h : Runs P (s.attemptBody m r j attempt c) db res db') :
    Store.reportOk r = true := by
  have hbody : ∀ {p : Prog Response},
      Runs P (if c.state ≠ .running then .fail (.conflict none)
        else if !Store.reportOk r then .fail (.invalid none) else p) db res db' →
      Store.reportOk r = true := by
    intro p h
    split at h
    · exact absurd h not_runs_fail
    split at h
    · exact absurd h not_runs_fail
    · rename_i hok
      simpa using hok
  cases m <;> first | exact hbody h | cases hm

theorem accept_response {job attempt : Uuid} {res : Response}
    (h : Runs P (Store.accept m r job attempt) db res db') : res = .accepted := by
  obtain ⟨_, _, h⟩ := runs_insertEvent h
  exact (runs_done.mp h).1

theorem finish_response {job attempt : Uuid} {state : AttemptState} {next : JobState} {res : Response}
    (h : Runs P (Store.finish m r job attempt state next) db res db') : res = .accepted := by
  obtain ⟨_, _, _, -, -, h⟩ := runs_sql_bind.mp h
  obtain ⟨_, _, h⟩ := runs_total (fun _ => rfl) h
  exact accept_response h

variable [Sha256] {c : Call} {res : Result}

/-- The transaction of an accepted report, after the checks that come before it. -/
theorem perform_attemptBody (hdb : db.Sound) (hop : c.op = .rpc m r) (hm : m.reports = true)
    (hfresh : db.request? (Store.rpcScope m r) r.requestID = none)
    (hok : perform c db = (.ok res, db')) :
    ∃ response d mid rs a j o, res = .response response ∧ Fenced (fun _ => True) d r a j ∧
      d.attempts = db.attempts ∧
      Runs (fun _ => True) (c.server.attemptBody m r j.row a.id (a.check o)) d response mid ∧
      db' = mid.withRequests rs := by
  obtain ⟨response, rs, rs', mid, rfl, hbody, rfl⟩ :=
    perform_body (P := fun _ => True) hop (fun _ => trivial) hdb hfresh hok
  obtain ⟨hattempt, hne⟩ := Method.onAttempt_of_reports hm
  obtain ⟨w, o, -, hrun⟩ := rpcBody_attempt hattempt (fun heq => absurd heq hne) hbody
  obtain ⟨a, j, o', hf, hrun⟩ := attempt_fenced hrun
  exact ⟨response, _, mid, rs', a, j, o', rfl, hf, rfl, hrun, rfl⟩

/-- A report that is applied is within the limits. -/
theorem perform_reportOk (hdb : db.Sound) (hop : c.op = .rpc m r) (hm : m.reports = true)
    (hfresh : db.request? (Store.rpcScope m r) r.requestID = none)
    (hok : perform c db = (.ok res, db')) : Store.reportOk r = true := by
  obtain ⟨_, _, _, _, _, _, _, -, -, -, hrun, -⟩ := perform_attemptBody hdb hop hm hfresh hok
  exact attemptBody_reportOk hm hrun

/-- A `FailAttempt` without artifacts that is applied records its reason. -/
theorem perform_failure (hdb : db.Sound) (hop : c.op = .rpc .failAttempt r)
    (hbare : r.artifacts.elems = [])
    (hfresh : db.request? (Store.rpcScope .failAttempt r) r.requestID = none)
    (hok : perform c db = (.ok res, db')) {a : AttemptRec}
    (hnamed : Uuid.parse r.attemptID = some a.id) (ha : db.attempt? a.id = some a) :
    res = .response .accepted ∧
      ∃ t, db'.attempt? a.id = some (a.finish .failed r.exitCode r.reason t) := by
  obtain ⟨response, d, mid, rs, b, j, o, rfl, hf, hattempts, hrun, rfl⟩ :=
    perform_attemptBody hdb hop rfl hfresh hok
  obtain ⟨-, _, mid', hrec, hfinish⟩ := report_recording hrun
  have hid : a.id = b.id := Option.some.inj (hnamed.symm.trans hf.named)
  have hsame : b = a := by
    have hb := hf.attempt
    rw [Db.attempt?, hattempts, ← Db.attempt?, ← hid, ha] at hb
    exact (Option.some.inj hb).symm
  subst hsame
  rw [hbare] at hrec
  obtain ⟨-, rfl⟩ := runs_done.mp hrec
  obtain ⟨of, oj, oe, -, -, -, rfl⟩ := finish_runs hf.attempt
    (by rw [Db.job?_id hf.job]; exact hf.job) hfinish
  exact ⟨congrArg Result.response (finish_response hfinish), of.clock 0,
    Db.attempt?_putAttempt hf.attempt rfl⟩

end Accepted

/-! ## Reports that are accepted -/

section Live

variable [Sha256] {db : Db} {c : Call} {m : Method} {r : Request} {a : AttemptRec}

/-- The id of a stored worker is one that `RPC` admits. -/
theorem Reachable.worker_named (h : Reachable db) {id : String} (hw : (db.worker? id).isSome = true) :
    id ≠ "" ∧ id.utf8ByteSize ≤ 256 ∧ Text.hasNul id = false := by
  obtain ⟨cs, rfl⟩ := h
  obtain ⟨pre, c, post, r, res, -, hop, rfl, hres⟩ := exec_worker_origin hw
  have hkey : c.op.key = some (Store.rpcScope .registerWorker r, r.requestID) := by
    rw [hop]
    rfl
  obtain ⟨hadm, hids⟩ := perform_admitted hkey (Prod.ext hres rfl)
  rw [hop] at hids
  simp only [Op.idsOk, Store.idsOk, Bool.and_eq_true, decide_eq_true_eq] at hids
  have htext := hadm.scopeText
  rw [Store.rpcScope, Text.hasNul_append, Bool.or_eq_false_iff] at htext
  exact ⟨hids.1.1.1, hids.1.2, htext.2⟩

/-- The attempt is running for the worker, and its lease and its deadline are ahead of
every reading of the clock that satisfies `P`. -/
structure Db.Holds (db : Db) (P : Oracle → Prop) (r : Request) (a : AttemptRec) : Prop where
  worker : ∃ w, db.worker? r.workerID = some w ∧ w.sessionID = r.sessionID
  named : Uuid.parse r.attemptID = some a.id
  attempt : db.attempt? a.id = some a
  owner : a.workerID = r.workerID
  token : a.leaseToken.text = r.leaseToken
  running : a.state = .running
  live : ∀ o, P o → a.validAt (o.clock 0) (o.clock 1) = true

/-- A report without artifacts about such an attempt is accepted if its data are clean. -/
theorem Db.Holds.accepted (h : Reachable db) (hop : c.op = .rpc m r) (hr : r.Formed m)
    (hholds : db.Holds (fun o => ∃ n, o = c.oracle n) r a)
    (hfresh : db.request? (Store.rpcScope m r) r.requestID = none) (hclean : r.clean m = true) :
    ∃ res, (perform c db).1 = .ok res := by
  obtain ⟨hsound, hlog⟩ := h.logged
  have hmem : a ∈ db.attempts := Table.mem_of_find hholds.attempt
  have hact : a.state.active = true := by rw [hholds.running]; rfl
  obtain ⟨j, hj⟩ := Option.isSome_iff_exists.mp (hsound.wf.attemptJob a hmem)
  have hcoherent := Db.jobCoherent (hlog.coherent hsound.wf (Db.mem_of_job? hj))
  have hjob : j.state.active = true := hcoherent.active_iff.mp
    ⟨a, Db.mem_attemptsOf.mpr ⟨hmem, (Db.job?_id hj).symm⟩, hact⟩
  have hpass : Passes (fun o => ∃ n, o = c.oracle n) db m r a j := {
    named := hholds.named
    attempt := hholds.attempt
    job := hj
    fence := fun o ho => by
      simp [Store.fence, AttemptRec.check, JobRec.row, hholds.owner, hholds.token,
        hholds.live o ho, hjob, hact]
    running := hholds.running
    report := hr.report
    artifacts := by simp [hr.bare]
    stored := by simp [hr.bare]
    distinct := by simp [hr.bare]
    exit := hr.exit }
  obtain ⟨w, hw, hsession⟩ := hholds.worker
  have hfails : (c.op.prog c.server).FailsOnly (fun o => ∃ n, o = c.oracle n) Err.rejects db := by
    rw [hop]
    exact FailsOnly.bind (rpc_rejects hr.reports ⟨_, 0, rfl⟩
      ⟨hr.ids, hr.nonempty, hr.short, hfresh⟩ hw hsession hpass) (fun _ _ _ => trivial)
  have hunique : (perform c db).1 ≠ .error (.db .unique) := by
    intro he
    have hsettled := perform_settled hop hr he
    cases hsettled
  have hfitting : ¬ c.DataRejected db := by
    refine (Prog.Fitting.call ?_).2
    rw [hop]
    exact All.bind (rpc_fitting hr.reports hclean) (fun _ => trivial)
  exact (FailsOnly.call hfails (fun n => ⟨n, rfl⟩) hunique).resolve_right hfitting

end Live

end Rungrid
