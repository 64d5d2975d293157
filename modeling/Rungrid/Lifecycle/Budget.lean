-- SUMMARY: The attempt budget: how it grows by retries, and that the placement of a job never exceeds it.
import Rungrid.Lifecycle.Placement

/-!
# The attempt budget

The budget of a job is the one of its definition and one more for every accepted
retry. The numbers of its attempts stay within it, so the check that `lease`
makes after inserting an attempt never fails.
-/

namespace Rungrid

/-! ## Retries and the budget -/

def EventRec.isRetry (e : EventRec) : Bool := e.eventType = .action .retry

/-- Only retries extend the budget. -/
theorem View.Trace.budget {v₀ v : View} {es : List EventRec} (h : View.Trace v₀ es v) :
    v.maxAttempts = v₀.maxAttempts + es.countP EventRec.isRetry := by
  induction h with
  | nil => simp
  | @snoc es v v' e _ hstep ih =>
      rw [List.countP_append, List.countP_singleton]
      cases hstep <;>
        simp_all [EventRec.isRetry, View.lease, View.set, View.cancel, View.retry, Int.add_assoc]

/-- The retries in the log of a job. -/
def Db.retries (db : Db) (job : Uuid) : Nat := (db.eventsOf job).countP EventRec.isRetry

theorem Db.retries_append {db db' : Db} {e : EventRec} (h : db'.events = db.events ++ [e])
    (job : Uuid) :
    db'.retries job = db.retries job + if e.jobID = job ∧ e.isRetry = true then 1 else 0 := by
  rw [Db.retries, Db.Logged.eventsOf_append h, List.countP_append, ← Db.retries]
  by_cases hj : e.jobID = job <;> simp [hj, List.countP_singleton]

theorem Effect.retries {P : Oracle → Prop} {s : Store} {db db' : Db} {c : Change}
    (h : Effect P s db c db') (job : Uuid) :
    db'.retries job = db.retries job + if c = .retried job then 1 else 0 := by
  cases h with
  | registered | touched | drained | renewed | recorded => rfl
  | _ =>
      refine (@Db.retries_append db _ _ rfl job).trans ?_
      simp [EventRec.isRetry, Db.newEvent]

theorem Changes.retries {P : Oracle → Prop} {s : Store} {db db' : Db} {cs : List Change}
    (h : Changes P s db cs db') (job : Uuid) :
    db'.retries job = db.retries job + cs.count (.retried job) := by
  induction h with
  | nil => simp
  | cons he _ ih =>
      rw [ih, he.retries job, List.count_cons]
      simp only [beq_iff_eq]
      omega

theorem Served.not_retried {P : Oracle → Prop} {db : Db} {r : Request} {m : Method}
    {cs : List Change} (h : Served P db r m cs) (job : Uuid) : .retried job ∉ cs := by
  cases h with
  | idle => simp
  | leased => simp
  | released => simp
  | alive => simp
  | attempt _ hm =>
      cases m <;> simp only [Method.attemptChanges] at hm
      case startAttempt => rcases hm with rfl | rfl <;> simp
      case heartbeat => simp [hm]
      all_goals
        obtain ⟨n, rfl⟩ := hm
        simp [List.mem_replicate]

/-- The operation asks for a retry of the job. -/
def Op.retryOf (job : Uuid) : Op → Bool
  | .action id .retry _ => Uuid.parse id = some job
  | _ => false

theorem Op.Makes.count_retried {P : Oracle → Prop} {db : Db} {op : Op} {cs : List Change}
    (h : op.Makes P db cs) (job : Uuid) :
    cs.count (.retried job) = if op.retryOf job then 1 else 0 := by
  cases op with
  | submit jobs =>
      refine List.count_eq_zero.mpr (fun hmem => ?_)
      obtain ⟨id, hid⟩ := h _ hmem
      cases hid
  | reap =>
      refine List.count_eq_zero.mpr (fun hmem => ?_)
      obtain ⟨id, a, hid⟩ := h _ hmem
      cases hid
  | action id a requestID =>
      obtain ⟨job', hparse, ha, rfl⟩ := h
      rcases ha with rfl | rfl
      · simp [Action.change, Op.retryOf]
      · simp [Action.change, Op.retryOf, hparse, List.count_singleton]
  | rpc m r =>
      refine List.count_eq_zero.mpr ?_
      by_cases hm : m = .registerWorker
      · subst hm
        rcases h with rfl | rfl <;> simp
      · have hserved : ∃ cs', cs = .touched r.workerID :: cs' ∧ Served P db r m cs' := by
          cases m <;> first
            | exact absurd rfl hm
            | (obtain ⟨w, cs', -, -, hcs, hs⟩ := h
               exact ⟨cs', hcs, hs⟩)
        obtain ⟨cs', rfl, hs⟩ := hserved
        simpa using hs.not_retried job

section Retries

variable [Sha256]

/-- The call is a retry of the job that is accepted, and not the replay of one. -/
def Call.retries (job : Uuid) (c : Call) (db : Db) : Bool := c.op.retryOf job && c.applied db

/-- The number of accepted retries of a job in a run from the empty database. -/
def acceptedRetries (job : Uuid) (cs : List Call) : Nat :=
  (Machine.trace perform cs Db.empty).countP (fun p => p.1.retries job p.2)

theorem perform_retries {db : Db} (hdb : db.Sound) (c : Call) (job : Uuid) :
    (perform c db).2.retries job = db.retries job + if c.retries job db then 1 else 0 := by
  cases happ : c.applied db with
  | false =>
      rw [(perform_unapplied hdb happ).1]
      simp [Call.retries, happ]
  | true =>
      obtain ⟨cs, mid, hmakes, hcs, heq⟩ := c.applied_changes (P := fun _ => True)
        (fun _ => trivial) hdb happ
      have hcount := hcs.retries job
      rw [hmakes.count_retried job] at hcount
      rw [heq]
      change mid.retries job = _
      simpa [Call.retries, happ] using hcount

theorem exec_retries {db : Db} (hdb : db.Sound) (cs : List Call) (job : Uuid) :
    (exec cs db).retries job = db.retries job +
      (Machine.trace perform cs db).countP (fun p => p.1.retries job p.2) := by
  induction cs generalizing db with
  | nil => simp [Machine.trace]
  | cons c cs ih =>
      have hdb' : (perform c db).2.Sound := exec_sound [c] hdb
      rw [exec_cons, ih hdb', perform_retries hdb c job, Machine.trace, List.countP_cons]
      dsimp only
      omega

end Retries

/-! ## Numbering and budget in reachable states -/

/-- The error "attempt budget invariant violated" is never returned. -/
theorem perform_ne_budget [Sha256] {db : Db} (h : db.Placeable) (c : Call) :
    (perform c db).1 ≠ .error .budget := by
  intro herr
  unfold perform at herr
  split at herr
  · cases herr
  · rename_i e hrun
    cases herr
    exact Prog.Safe.error (prog_placed h) hrun rfl

/-- The attempts of a job are numbered `1..n` within its budget, which is that of
its definition and one for each of the given number of retries. -/
structure Db.JobBudget (db : Db) (j : JobRec) (retries : Nat) : Prop where
  numbers : (db.attemptsOf j.id).map AttemptRec.attemptNumber
    = View.countUp (db.attemptsOf j.id).length
  within : ((db.attemptsOf j.id).length : Int) ≤ j.maxAttempts
  budget : j.maxAttempts = j.definition.maxAttempts + retries
  queued : j.state = .queued → ((db.attemptsOf j.id).length : Int) < j.maxAttempts
  failed : j.state = .failed → ((db.attemptsOf j.id).length : Int) = j.maxAttempts
  leasable : j.state = .queued → db.nextNumber j.id ≤ j.maxAttempts

/-- After every run every job keeps its numbering and budget, and no call is
answered with the error that `lease` reserves for a violated budget. -/
theorem attempts_within_budget [Sha256] (cs : List Call) :
    (∀ j ∈ (exec cs Db.empty).jobs,
      (exec cs Db.empty).JobBudget j (acceptedRetries j.id cs)) ∧
    ∀ c, (perform c (exec cs Db.empty)).1 ≠ .error .budget := by
  obtain ⟨hsound, hlog⟩ := Reachable.logged ⟨cs, rfl⟩
  refine ⟨fun j hj => ?_, fun c => perform_ne_budget (Reachable.placeable ⟨cs, rfl⟩) c⟩
  have hcoh := hlog.coherent hsound.wf hj
  have hlen : (((exec cs Db.empty).view j).attempts.length : Int)
      = ((exec cs Db.empty).attemptsOf j.id).length := by
    simp [Db.view]
  refine ⟨Db.numbers hcoh, hlen ▸ hcoh.budget, ?_, fun hq => hlen ▸ hcoh.queued hq,
    fun hf => hlen ▸ hcoh.failed hf, Db.next_le_budget hcoh⟩
  have hbudget := (hlog j hj).budget
  have hretries := exec_retries Db.sound_empty cs j.id
  have hzero : Db.empty.retries j.id = 0 := rfl
  rw [hzero, Nat.zero_add] at hretries
  rw [acceptedRetries, ← hretries]
  exact hbudget

theorem attempts_within_budget_sample :
    Sample.leasedDb.JobBudget Sample.jobRow (@acceptedRetries Sample.digest Sample.jobID Sample.leased) := by
  have h := (@attempts_within_budget Sample.digest Sample.leased).1
  rw [Sample.leased_exec] at h
  exact h Sample.jobRow (by simp [Sample.leasedDb])

end Rungrid
