-- SUMMARY: The tables refine the life of each job, and the event log determines them.
import Rungrid.Lifecycle.Operations
import Rungrid.Lifecycle.View

/-!
# The event log

`Db.view` reads the view of a job off the tables. `Db.Logged` says that the view
of every job is the one its events lead to, by steps that were enabled when they
were taken. Every change keeps it, so the tables refine the abstract life of each
job.
-/

namespace Rungrid

def AttemptRec.view (a : AttemptRec) : AttemptView := ⟨a.id, a.attemptNumber, a.workerID, a.state⟩

/-- The view of a stored job. -/
def Db.view (db : Db) (j : JobRec) : View :=
  ⟨j.state, j.maxAttempts, (db.attemptsOf j.id).map AttemptRec.view⟩

/-- The view of every job is the one its events lead to. -/
def Db.Logged (db : Db) : Prop :=
  ∀ j ∈ db.jobs, View.Trace (View.initial j.definition) (db.eventsOf j.id) (db.view j)

/-! ## The attempts of a job after a write -/

section Attempts

variable {db : Db} {a a' : AttemptRec}

theorem Db.mem_attemptsOf {job : Uuid} : a ∈ db.attemptsOf job ↔ a ∈ db.attempts ∧ a.jobID = job := by
  simp [Db.attemptsOf]

theorem Db.attemptsOf_append (row : AttemptRec) (job : Uuid) :
    (db.apply (.insertAttempt row)).attemptsOf job =
      db.attemptsOf job ++ if row.jobID = job then [row] else [] := by
  by_cases h : row.jobID = job <;> simp [Db.attemptsOf, Db.apply, h]

theorem Db.WF.attemptsOf_put (h : db.WF) (ha : db.attempt? a.id = some a) (hf : a'.fixed = a.fixed)
    (job : Uuid) :
    (db.apply (.putAttempt a')).attemptsOf job = Table.put AttemptRec.id a' (db.attemptsOf job) := by
  obtain ⟨hid, hjob, -⟩ := AttemptRec.fixed_eq hf
  refine Table.filter_put (fun b hb hb' => ?_)
  rw [h.attempt_unique hb (mem_of_attempt? ha) (hb'.trans hid), hjob]

/-- The attempts of the other jobs stay. -/
theorem Db.WF.attemptsOf_put_ne (h : db.WF) (ha : db.attempt? a.id = some a)
    (hf : a'.fixed = a.fixed) {job : Uuid} (hjob : a.jobID ≠ job) :
    (db.apply (.putAttempt a')).attemptsOf job = db.attemptsOf job := by
  rw [h.attemptsOf_put ha hf]
  refine Table.put_of_forall_ne (fun b hb hb' => hjob ?_)
  obtain ⟨hmem, hb⟩ := mem_attemptsOf.mp hb
  rw [← hb, h.attempt_unique hmem (mem_of_attempt? ha) (hb'.trans (AttemptRec.fixed_eq hf).1)]

theorem Db.view_find (h : db.WF) {j : JobRec} (ha : db.attempt? a.id = some a)
    (hjob : a.jobID = j.id) : (db.view j).find a.id = some a.view := by
  have hfind : Table.find AttemptRec.id a.id (db.attemptsOf j.id) = some a :=
    h.attempts.find_filter ha (by simpa using hjob)
  have hview : (db.view j).find a.id
      = (Table.find AttemptRec.id a.id (db.attemptsOf j.id)).map AttemptRec.view :=
    Table.find_map (fun _ => rfl) _ _
  rw [hview, hfind, Option.map_some]

/-- The attempts of the job of an updated attempt, as the view has them. -/
theorem Db.WF.view_put (h : db.WF) (ha : db.attempt? a.id = some a) (hf : a'.fixed = a.fixed)
    (job : Uuid) :
    ((db.apply (.putAttempt a')).attemptsOf job).map AttemptRec.view =
      Table.put AttemptView.id { a.view with state := a'.state }
        ((db.attemptsOf job).map AttemptRec.view) := by
  obtain ⟨hid, -, hnum, hworker, -⟩ := AttemptRec.fixed_eq hf
  have hview : a'.view = { a.view with state := a'.state } := by
    simp only [AttemptRec.view, hid, hnum, hworker]
  rw [h.attemptsOf_put ha hf, ← hview]
  refine Table.map_put_comm ?_ a' _
  intro _
  rfl

end Attempts

/-! ## Changes and the log -/

namespace Db.Logged

variable {db db' : Db}

theorem eventsOf_append {e : EventRec} (hev : db'.events = db.events ++ [e]) (job : Uuid) :
    db'.eventsOf job = db.eventsOf job ++ if e.jobID = job then [e] else [] := by
  by_cases h : e.jobID = job <;> simp [Db.eventsOf, hev, h]

/-- A change that no view shows. -/
theorem frame (h : db.Logged) (hjobs : db'.jobs = db.jobs) (hev : db'.events = db.events)
    (hatt : ∀ job, (db'.attemptsOf job).map AttemptRec.view
      = (db.attemptsOf job).map AttemptRec.view) : db'.Logged := by
  intro j hj
  rw [hjobs] at hj
  have hview : db'.view j = db.view j := by rw [Db.view, Db.view, hatt]
  have heventsOf : db'.eventsOf j.id = db.eventsOf j.id := by rw [Db.eventsOf, Db.eventsOf, hev]
  rw [hview, heventsOf]
  exact h j hj

/-- A change of one job that appends an event: it has to be a step of that job,
and the other jobs keep their attempts. -/
theorem step {j j' : JobRec} {e : EventRec} (h : db.Logged) (hj : db.job? j.id = some j)
    (hf : j'.fixed = j.fixed) (hjobs : db'.jobs = Table.put JobRec.id j' db.jobs) (hev : db'.events = db.events ++ [e])
    (hejob : e.jobID = j.id) (hother : ∀ job, j.id ≠ job → db'.attemptsOf job = db.attemptsOf job)
    (hstep : View.Step (db.view j) e
      ⟨j'.state, j'.maxAttempts, (db'.attemptsOf j.id).map AttemptRec.view⟩) : db'.Logged := by
  obtain ⟨hid, -, hdef, -⟩ := JobRec.fixed_eq hf
  intro k hk
  rw [hjobs] at hk
  rw [eventsOf_append hev]
  rcases Table.mem_put.mp hk with ⟨rfl, -⟩ | ⟨hk, hne⟩
  · have htrace := (h j (mem_of_job? hj)).snoc hstep
    rw [if_pos (hejob.trans hid.symm), Db.view, hdef, hid]
    exact htrace
  · have hne' : j.id ≠ k.id := fun heq => hne (heq.symm.trans hid.symm)
    have hview : db'.view k = db.view k := by rw [Db.view, Db.view, hother _ hne']
    rw [if_neg (fun heq => hne' (hejob.symm.trans heq)), List.append_nil, hview]
    exact h k hk

/-- A change of a job and of one of its attempts. -/
theorem transition {j j' : JobRec} {a a' : AttemptRec} {e : EventRec} (h : db.Logged)
    (hwf : db.WF) (hj : db.job? j.id = some j) (ha : db.attempt? a.id = some a)
    (hjob : a.jobID = j.id) (hfj : j'.fixed = j.fixed) (hfa : a'.fixed = a.fixed)
    (hejob : e.jobID = j.id)
    (hstep : View.Step (db.view j) e ⟨j'.state, j'.maxAttempts,
      Table.put AttemptView.id { a.view with state := a'.state } (db.view j).attempts⟩) :
    (db.applyAll [.putAttempt a', .putJob j', .insertEvent e]).Logged := by
  refine h.step hj hfj rfl rfl hejob (fun job hne => ?_) ?_
  · exact hwf.attemptsOf_put_ne ha hfa (hjob ▸ hne)
  · have hview := hwf.view_put ha hfa j.id
    rw [show (db.applyAll [.putAttempt a', .putJob j', .insertEvent e]).attemptsOf j.id
      = (db.apply (.putAttempt a')).attemptsOf j.id from rfl, hview]
    exact hstep

/-- A change of a job alone. -/
theorem action {j j' : JobRec} {e : EventRec} (h : db.Logged) (hj : db.job? j.id = some j)
    (hf : j'.fixed = j.fixed) (hejob : e.jobID = j.id)
    (hstep : View.Step (db.view j) e ⟨j'.state, j'.maxAttempts, (db.view j).attempts⟩) :
    (db.applyAll [.putJob j', .insertEvent e]).Logged :=
  h.step hj hf rfl rfl hejob (fun _ _ => rfl) hstep

end Db.Logged

/-- A job that is not stored has no attempts and no events. -/
theorem Db.WF.unknown_job {db : Db} (h : db.WF) {id : Uuid} (hid : db.job? id = none) :
    db.attemptsOf id = [] ∧ db.eventsOf id = [] := by
  constructor
  · refine List.filter_eq_nil_iff.mpr (fun a ha hjob => ?_)
    have hsome := h.attemptJob a ha
    rw [of_decide_eq_true hjob, hid] at hsome
    cases hsome
  · refine List.filter_eq_nil_iff.mpr (fun e he hjob => ?_)
    have hsome := h.eventJob e he
    rw [of_decide_eq_true hjob, hid] at hsome
    cases hsome

/-- The active attempts `View.cancel` ends are those of the job's rows. -/
theorem Db.WF.view_cancel {db : Db} (h : db.WF) {j : JobRec} {a : AttemptRec}
    (ha : db.attempt? a.id = some a) (hjob : a.jobID = j.id) (hact : a.state.active = true) :
    (db.view j).cancel = ⟨.cancelled, j.maxAttempts,
      Table.put AttemptView.id { a.view with state := .cancelled } (db.view j).attempts⟩ := by
  simp only [View.cancel, Db.view, Table.put, List.map_map, View.mk.injEq, true_and]
  apply List.map_congr_left
  intro b hb
  obtain ⟨hb, hbjob⟩ := mem_attemptsOf.mp hb
  have hamem := mem_of_attempt? ha
  by_cases hid : b.id = a.id
  · rw [h.attempt_unique hb hamem hid]
    simp [AttemptRec.view, hact]
  · -- Another attempt of the job is not active.
    have hinactive : b.state.active = false := by
      rw [Bool.eq_false_iff]
      intro hbact
      exact hid (by rw [h.oneActive b hb a hamem (hbjob.trans hjob.symm) hbact hact])
    simp [AttemptRec.view, hid, hinactive]

/-- Without active attempts only the state of the job changes. -/
theorem Db.view_cancel_idle {db : Db} {j : JobRec}
    (hno : ∀ a ∈ db.attempts, a.jobID = j.id → a.state.active = false) :
    (db.view j).cancel = ⟨.cancelled, j.maxAttempts, (db.view j).attempts⟩ := by
  simp only [View.cancel, Db.view, List.map_map, View.mk.injEq, true_and]
  apply List.map_congr_left
  intro b hb
  obtain ⟨hb, hbjob⟩ := mem_attemptsOf.mp hb
  simp [AttemptRec.view, hno b hb hbjob]

/-- A new job starts its log. -/
theorem Db.Logged.submit {db : Db} (h : db.Logged) (hwf : db.WF) {d : Job} {id : Uuid} {o : Oracle}
    {e : EventRec} (hid : db.job? id = none) (hejob : e.jobID = id)
    (htype : e.eventType = .submitted) :
    (db.applyAll [.insertJob (d.newRow id o), .insertEvent e]).Logged := by
  obtain ⟨hatt, hev⟩ := hwf.unknown_job hid
  intro k hk
  have hevents : (db.applyAll [.insertJob (d.newRow id o), .insertEvent e]).eventsOf k.id
      = db.eventsOf k.id ++ if e.jobID = k.id then [e] else [] := eventsOf_append rfl k.id
  rcases List.mem_append.mp hk with hk | hk
  · have hne : e.jobID ≠ k.id := by
      intro heq
      rw [← hejob, heq, hwf.job_of_mem hk] at hid
      cases hid
    rw [if_neg hne, List.append_nil] at hevents
    exact hevents.symm ▸ h k hk
  · obtain rfl := List.mem_singleton.mp hk
    have hinit : db.view (d.newRow id o) = View.initial d := by
      change (⟨.queued, d.maxAttempts, (db.attemptsOf id).map AttemptRec.view⟩ : View) = _
      rw [hatt]
      rfl
    have hfirst : db.eventsOf (d.newRow id o).id = [] := hev
    have hself : e.jobID = (d.newRow id o).id := hejob
    rw [hfirst, if_pos hself] at hevents
    have htrace : View.Trace (View.initial d) [e] (View.initial d) :=
      View.Trace.nil.snoc (.submitted htype)
    exact hevents.symm ▸ hinit ▸ htrace

/-- A lease is a step of its job. -/
theorem Db.Logged.lease {db : Db} (h : db.Logged) {j : JobRec} {row : AttemptRec} {e : EventRec}
    {requestID : String} {now : Time} (hj : db.job? j.id = some j) (hq : j.state = .queued)
    (hfree : db.attemptTaken row.id j.id row.attemptNumber = false) (hjob : row.jobID = j.id)
    (hnum : row.attemptNumber = db.nextNumber j.id) (hst : row.state = .leased)
    (hejob : e.jobID = j.id) (htype : e.eventType = .leased) (hatt : e.attemptID = some row.id)
    (hpay : e.payload = .leased requestID row.workerID row.attemptNumber) :
    (db.applyAll [.insertAttempt row, .putJob (j.setState .leased now), .insertEvent e]).Logged := by
  have hnext : (db.view j).nextNumber = row.attemptNumber := by
    rw [hnum, View.nextNumber, Db.nextNumber, Db.view, List.map_map]
    rfl
  have hnew : (db.view j).find row.id = none := by
    refine Table.find_eq_none.mpr (fun b hb hbid => ?_)
    obtain ⟨a, ha, rfl⟩ := List.mem_map.mp hb
    simp only [Db.attemptTaken, List.any_eq_false, Bool.or_eq_true, decide_eq_true_eq,
      not_or] at hfree
    exact (hfree a (Db.mem_attemptsOf.mp ha).1).1 hbid
  have happ := db.attemptsOf_append row
  refine h.step hj (show (j.setState .leased now).fixed = j.fixed from rfl) rfl rfl hejob
    (fun job hne => ?_) ?_
  · refine (happ job).trans ?_
    rw [if_neg (fun heq => hne (hjob.symm.trans heq)), List.append_nil]
  · have hstep := View.Step.leased htype hatt (hnext.symm ▸ hpay) hq hnew
    rw [hnext] at hstep
    have hview : ((db.apply (.insertAttempt row)).attemptsOf j.id).map AttemptRec.view
        = (db.view j).attempts ++ [⟨row.id, row.attemptNumber, row.workerID, .leased⟩] := by
      rw [happ, if_pos hjob, List.map_append, ← hst]
      rfl
    exact hview.symm ▸ hstep

/-- Every change keeps the log and the tables together. -/
theorem Effect.logged {P : Oracle → Prop} {s : Store} {db db' : Db} {c : Change}
    (hwf : db.WF) (h : db.Logged) (he : Effect P s db c db') : db'.Logged := by
  cases he with
  | submitted _ _ hid _ _ => exact h.submit hwf hid rfl rfl
  | registered _ _ _ => exact h.frame rfl rfl (fun _ => rfl)
  | touched _ _ => exact h.frame rfl rfl (fun _ => rfl)
  | drained _ => exact h.frame rfl rfl (fun _ => rfl)
  | leased _ _ hj hp hfree _ _ _ _ =>
      simp only [JobRec.placeable, Bool.and_eq_true, decide_eq_true_eq] at hp
      exact h.lease hj hp.1 hfree rfl rfl rfl rfl rfl rfl rfl
  | @renewed r a j o hf _ =>
      refine h.frame rfl rfl (fun job => ?_)
      have hput := hwf.attemptsOf_put hf.attempt
        (show (a.renew s.leaseSeconds (o.clock 0)).fixed = a.fixed from rfl) job
      refine (congrArg (List.map AttemptRec.view) hput).trans (Table.map_put (fun b hb hid => ?_))
      rw [hwf.attempt_unique (Db.mem_attemptsOf.mp hb).1 (Db.mem_of_attempt? hf.attempt) hid]
      rfl
  | @started r a j o oj oe hf hst _ _ _ =>
      exact h.transition hwf hf.job_self hf.attempt hf.jobID.symm rfl rfl rfl
        (.started (a := a.view) rfl rfl (Db.view_find hwf hf.attempt hf.jobID.symm) hst)
  | @noted r a j m oe hf hst hm _ =>
      have hput := hwf.jobs.put_self (Db.mem_of_job? hf.job_self)
      refine h.step hf.job_self rfl hput.symm rfl rfl (fun _ _ => rfl) ?_
      rcases hm with rfl | rfl
      · exact .restarted (a := a.view) rfl rfl (Db.view_find hwf hf.attempt hf.jobID.symm) hst
      · exact .reported rfl
  | recorded => exact h.frame rfl rfl (fun _ => rfl)
  | @completed r a j o oj oe hf hst _ _ _ _ =>
      exact h.transition hwf hf.job_self hf.attempt hf.jobID.symm rfl rfl rfl
        (.completed (a := a.view) rfl rfl (Db.view_find hwf hf.attempt hf.jobID.symm) hst)
  | @failed r a j o oj oe hf hst _ _ _ =>
      exact h.transition hwf hf.job_self hf.attempt hf.jobID.symm rfl rfl rfl
        (.failed (v := db.view j) (a := a.view) rfl rfl
          (Db.view_find hwf hf.attempt hf.jobID.symm) hst)
  | @cancelled j a requestID o oj oe hj hs hf hc ha hjob hact _ _ _ =>
      refine h.transition hwf hj ha hjob rfl rfl rfl ?_
      have hstep := View.Step.cancelled (v := db.view j)
        (e := db.newEvent oe j.id none (.action .cancel) (.action requestID)) rfl hs hf hc
      rwa [hwf.view_cancel ha hjob hact] at hstep
  | @cancelledIdle j requestID oj oe hj hs hf hno _ _ =>
      refine h.action hj rfl rfl ?_
      by_cases hc : j.state = .cancelled
      · have hstep := View.Step.recancelled (v := db.view j)
          (e := db.newEvent oe j.id none (.action .cancel) (.action requestID)) rfl hc
        have hsame : db.view j = ⟨.cancelled, j.maxAttempts, (db.view j).attempts⟩ := by
          rw [Db.view, hc]
        exact hsame ▸ hstep
      · have hstep := View.Step.cancelled (v := db.view j)
          (e := db.newEvent oe j.id none (.action .cancel) (.action requestID)) rfl hs hf hc
        rwa [Db.view_cancel_idle (hno hc)] at hstep
  | retried hj hst _ _ => exact h.action hj rfl rfl (.retried rfl hst)
  | @expired a j oq o oj oe ha hj _ hexp _ _ _ =>
      have hjob := Db.job?_id hj
      simp only [AttemptRec.expiredAt, Bool.and_eq_true] at hexp
      exact h.transition hwf (by rw [hjob, hj]) ha hjob.symm rfl rfl rfl
        (.expired (v := db.view j) (a := a.view) rfl rfl (Db.view_find hwf ha hjob.symm) hexp.1)

/-! ## Reachable states -/

theorem Db.Logged.withRequests {db : Db} (h : db.Logged) (rs : List RequestRec) :
    (db.withRequests rs).Logged := h

theorem Reachable.logged [Sha256] {db : Db} (h : Reachable db) : db.Sound ∧ db.Logged :=
  h.inv (by intro j hj; cases hj) (fun rs h => h.withRequests rs) (fun hwf h he => he.logged hwf h)

/-- The events of a job in the order of their ids. -/
def Db.log (db : Db) (job : Uuid) : List EventRec :=
  (db.eventsOf job).insertionSort (fun e e' => e.id ≤ e'.id)

/-- Events are stored in the order of their ids. -/
theorem Db.WF.log {db : Db} (h : db.WF) (job : Uuid) : db.log job = db.eventsOf job := by
  refine List.Pairwise.insertionSort_eq ?_
  have hsorted := (List.pairwise_map.mp h.eventIDs).filter (fun e => e.jobID = job)
  exact hsorted.imp (fun hlt => Nat.le_of_lt hlt)

/-- Folding the events of a job over its definition yields the state and budget of
the job and the id, number, worker and state of each of its attempts. -/
theorem eventLog_determines_job [Sha256] (db : Db) (h : Reachable db) (j : JobRec)
    (hj : j ∈ db.jobs) :
    (db.log j.id).foldl View.replay (View.initial j.definition) =
      ⟨j.state, j.maxAttempts, (db.attemptsOf j.id).map
        (fun a => ⟨a.id, a.attemptNumber, a.workerID, a.state⟩)⟩ := by
  obtain ⟨hsound, hlogged⟩ := h.logged
  rw [hsound.wf.log]
  exact (hlogged j hj).replay

theorem eventLog_determines_job_sample :
    (Sample.leasedDb.log Sample.jobID).foldl View.replay (View.initial Sample.job) =
      ⟨.leased, 3, [⟨Sample.attemptID, 1, "w", .leased⟩]⟩ :=
  (@eventLog_determines_job Sample.digest Sample.leasedDb Sample.leased_reachable Sample.jobRow
    (by simp [Sample.leasedDb])).trans (by decide +kernel)

end Rungrid
