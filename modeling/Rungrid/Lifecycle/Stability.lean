-- SUMMARY: What has ended stays as it is: finished attempts, decided jobs, events and artifacts.
import Rungrid.Lifecycle.Budget

/-!
# Stability

A relation between two states of a run, the earlier and the later. A finished
attempt keeps its row and a job that succeeded or was cancelled its state, and
events and artifacts are only added. A failed job is moved by an accepted retry
and by nothing else.
-/

namespace Rungrid

/-- The state of a stored job. -/
def Db.stateOf (db : Db) (id : Uuid) : Option JobState := (db.job? id).map JobRec.state

@[simp] theorem Db.stateOf_withRequests (db : Db) (rs : List RequestRec) (id : Uuid) :
    (db.withRequests rs).stateOf id = db.stateOf id := rfl

/-- No change leads out of these states. -/
def JobState.decided : JobState → Bool
  | .succeeded | .cancelled => true
  | _ => false

/-- What has ended in `db` is the same in `db'`. -/
structure Db.Settles (db db' : Db) : Prop where
  grows : db.Grows db'
  attempt : ∀ {id a}, db.attempt? id = some a → a.state.active = false → db'.attempt? id = some a
  job : ∀ {id st}, db.stateOf id = some st → st.decided = true → db'.stateOf id = some st

namespace Db.Settles

variable {db db' db'' : Db}

theorem refl (db : Db) : db.Settles db := ⟨.refl db, fun h _ => h, fun h _ => h⟩

theorem trans (h : db.Settles db') (h' : db'.Settles db'') : db.Settles db'' where
  grows := h.grows.trans h'.grows
  attempt ha hact := h'.attempt (h.attempt ha hact) hact
  job hj hd := h'.job (h.job hj hd) hd

theorem withRequests (h : db.Settles db') (rs : List RequestRec) :
    db.Settles (db'.withRequests rs) :=
  ⟨h.grows.withRequests db.requests rs, h.attempt, h.job⟩

end Db.Settles

/-! ## One change -/

section Changes

variable {P : Oracle → Prop} {s : Store} {db db' : Db} {c : Change}

/-- A move of a job in a state that agrees with its attempts. -/
theorem Moves.state {j j' : JobRec} (h : Moves db j j' c) (hcoh : db.JobCoherent j) :
    (j.state.decided = true → j'.state = j.state) ∧ (j.state = .failed → c = .retried j.id) := by
  cases h with
  | lease hq _ => simp [hq, JobState.decided]
  | attempt hex =>
      obtain ⟨a, ha, hjob, hact⟩ := hex
      have hj := hcoh.active_iff.mp ⟨a, Db.mem_attemptsOf.mpr ⟨ha, hjob⟩, hact⟩
      constructor <;> intro hst <;> revert hj hst <;> cases j.state <;>
        simp [JobState.active, JobState.decided]
  | cancel hs hf hc =>
      refine ⟨fun hd => ?_, fun hfail => absurd hfail hf⟩
      revert hd hs
      rw [hc]
      cases j.state <;> simp [JobState.decided]
  | retry hf _ => simp [hf, JobState.decided]

/-- The state of a job after a change, unless the change adds the job or moves it. -/
theorem Effect.stateOf (h : Effect P s db c db') {id : Uuid} {st : JobState}
    (hst : db.stateOf id = some st) :
    db'.stateOf id = some st ∨
      ∃ j j', j ∈ db.jobs ∧ j.id = id ∧ j.state = st ∧ db'.stateOf id = some j'.state ∧
        Moves db j j' c := by
  obtain ⟨j, hj, rfl⟩ := Option.map_eq_some_iff.mp hst
  rcases h.jobs with heq | ⟨row, heq⟩ | ⟨k, k', hk, heq, hfix, hmove⟩
  · exact .inl (by rw [Db.stateOf, Db.job?, heq]; exact hst)
  · refine .inl ?_
    rw [Db.stateOf, Db.job?, heq, Table.find_append_of_some row hj]
    rfl
  · have hk' : Table.find JobRec.id k'.id db.jobs = some k := by
      rw [(JobRec.fixed_eq hfix).1]
      exact hk
    rcases Table.find_put_cases hk' hj with hsame | ⟨rfl, hput⟩
    · exact .inl (by rw [Db.stateOf, Db.job?, heq, hsame]; rfl)
    · refine .inr ⟨k, k', Db.mem_of_job? hj, Db.job?_id hj, rfl, ?_, hmove⟩
      rw [Db.stateOf, Db.job?, heq, hput]
      rfl

theorem Effect.settles (h : Effect P s db c db') (hwf : db.WF) (hlog : db.Logged) :
    db.Settles db' where
  grows := h.grows
  attempt {id a} ha hact := by
    rcases h.attempts with heq | ⟨row, heq⟩ | ⟨b, b', hb, hbact, heq, hfix⟩
    · rw [Db.attempt?, heq]
      exact ha
    · rw [Db.attempt?, heq]
      exact Table.find_append_of_some row ha
    · have hb' : Table.find AttemptRec.id b'.id db.attempts = some b := by
        rw [(AttemptRec.fixed_eq hfix).1]
        exact hb
      rw [Db.attempt?, heq]
      rcases Table.find_put_cases hb' ha with hsame | ⟨rfl, -⟩
      · exact hsame
      · rw [hact] at hbact
        cases hbact
  job {id st} hst hd := by
    rcases h.stateOf hst with hsame | ⟨j, j', hj, -, rfl, hst', hmove⟩
    · exact hsame
    · rw [hst', (hmove.state (Db.jobCoherent (hlog.coherent hwf hj))).1 hd]

/-- A failed job stays failed under every change but its retry. -/
theorem Effect.failed_stays (h : Effect P s db c db') (hwf : db.WF) (hlog : db.Logged) {id : Uuid}
    (hst : db.stateOf id = some .failed) (hc : c ≠ .retried id) :
    db'.stateOf id = some .failed := by
  rcases h.stateOf hst with hsame | ⟨j, j', hj, rfl, hfail, -, hmove⟩
  · exact hsame
  · exact absurd ((hmove.state (Db.jobCoherent (hlog.coherent hwf hj))).2 hfail) hc

end Changes

/-! ## One call -/

section Calls

variable {P : Oracle → Prop} {s : Store} {db db' : Db} {cs : List Change}

theorem Changes.settles (h : Changes P s db cs db') (hwf : db.WF) (hlog : db.Logged) :
    db.Settles db' := by
  induction h with
  | nil => exact .refl _
  | cons he _ ih => exact (he.settles hwf hlog).trans (ih (he.wf hwf) (he.logged hwf hlog))

theorem Changes.failed_stays (h : Changes P s db cs db') (hwf : db.WF) (hlog : db.Logged) {id : Uuid}
    (hst : db.stateOf id = some .failed) (hcs : .retried id ∉ cs) :
    db'.stateOf id = some .failed := by
  induction h with
  | nil => exact hst
  | cons he _ ih =>
      simp only [List.mem_cons, not_or] at hcs
      exact ih (he.wf hwf) (he.logged hwf hlog) (he.failed_stays hwf hlog hst (Ne.symm hcs.1)) hcs.2

/-- The job a change moves at the request of a client or at its completion, and
the state it moves it to. -/
def Change.target : Change → Option (Uuid × JobState)
  | .completed job _ => some (job, .succeeded)
  | .cancelled job => some (job, .cancelled)
  | .retried job => some (job, .queued)
  | _ => none

theorem Effect.target {c : Change} (h : Effect P s db c db') {job : Uuid} {st : JobState}
    (ht : c.target = some (job, st)) : db'.stateOf job = some st := by
  have hput : ∀ {j j' : JobRec} {d : Db} {st}, db.job? j.id = some j →
      d.jobs = Table.put JobRec.id j' db.jobs → j'.id = j.id → j'.state = st →
      d.stateOf j.id = some st := by
    intro j j' d st hj hd hid hst
    have hfound : d.job? j.id = some j' := by
      rw [Db.job?, hd]
      exact Db.job?_putJob hj hid
    rw [Db.stateOf, hfound, ← hst]
    rfl
  cases h <;> simp only [Change.target, reduceCtorEq, Option.some.injEq, Prod.mk.injEq] at ht <;>
    obtain ⟨rfl, rfl⟩ := ht
  case completed hf _ _ _ _ _ => exact hput hf.job_self rfl rfl rfl
  case cancelled hj _ _ _ _ _ _ _ _ _ => exact hput hj rfl rfl rfl
  case cancelledIdle hj _ _ _ _ _ => exact hput hj rfl rfl rfl
  case retried hj _ _ _ => exact hput hj rfl rfl rfl

/-- The last change of a sequence has moved its job. -/
theorem Changes.target {c : Change} (h : Changes P s db (cs ++ [c]) db') {job : Uuid}
    {st : JobState} (ht : c.target = some (job, st)) : db'.stateOf job = some st := by
  obtain ⟨mid, -, hlast⟩ := h.split
  exact hlast.of_one.target ht

/-- The state in which an action on the job or the completion of one of its
attempts leaves it. -/
def Op.target (db : Db) (job : Uuid) : Op → Option JobState
  | .action id .cancel _ => if Uuid.parse id = some job then some .cancelled else none
  | .action id .retry _ => if Uuid.parse id = some job then some .queued else none
  | .rpc .completeAttempt r =>
      if ((Uuid.parse r.attemptID).bind db.attempt?).any (fun a => a.jobID = job) then
        some .succeeded
      else none
  | _ => none

/-- The last change of such an operation is the one that moves the job. -/
theorem Op.Makes.target {op : Op} (h : op.Makes P db cs) {job : Uuid} {st : JobState}
    (ht : op.target db job = some st) : ∃ pre c, cs = pre ++ [c] ∧ c.target = some (job, st) := by
  unfold Op.target at ht
  split at ht
  · obtain ⟨job', hparse, -, rfl⟩ := h
    simp only [hparse, Option.some.injEq, Option.ite_none_right_eq_some] at ht
    obtain ⟨rfl, rfl⟩ := ht
    exact ⟨[], _, rfl, rfl⟩
  · obtain ⟨job', hparse, -, rfl⟩ := h
    simp only [hparse, Option.some.injEq, Option.ite_none_right_eq_some] at ht
    obtain ⟨rfl, rfl⟩ := ht
    exact ⟨[], _, rfl, rfl⟩
  · obtain ⟨w, cs', -, -, rfl, hserved⟩ := h
    cases hserved with
    | @attempt _ a j _ hf hm =>
        obtain ⟨n, rfl⟩ := hm
        rw [hf.named, Option.bind_some, hf.attempt] at ht
        simp only [Option.any_some, decide_eq_true_eq, Option.ite_none_right_eq_some,
          Option.some.injEq] at ht
        obtain ⟨rfl, rfl⟩ := ht
        exact ⟨.touched _ :: List.replicate n (.recorded a.id), _, rfl, by rw [← hf.jobID]; rfl⟩
  · cases ht

variable [Sha256]

theorem perform_settles (h : Reachable db) (c : Call) : db.Settles (perform c db).2 := by
  obtain ⟨hsound, hlog⟩ := h.logged
  cases happ : c.applied db with
  | false => rw [(perform_unapplied hsound happ).1]; exact .refl db
  | true =>
      obtain ⟨cs, mid, -, hcs, heq⟩ :=
        c.applied_changes (P := fun _ => True) (fun _ => trivial) hsound happ
      rw [heq]
      exact (hcs.settles hsound.wf hlog).withRequests _

theorem exec_settles (h : Reachable db) (ds : List Call) : db.Settles (exec ds db) := by
  induction ds generalizing db with
  | nil => exact .refl db
  | cons c ds ih => exact (perform_settles h c).trans (ih (h.perform c))

/-- An applied action or completion leaves the job in the state it asks for. -/
theorem perform_target (hdb : db.Sound) {c : Call} (happ : c.applied db = true) {job : Uuid}
    {st : JobState} (ht : c.op.target db job = some st) :
    (perform c db).2.stateOf job = some st := by
  obtain ⟨cs, mid, hmakes, hcs, heq⟩ :=
    c.applied_changes (P := fun _ => True) (fun _ => trivial) hdb happ
  obtain ⟨pre, ch, rfl, hch⟩ := hmakes.target ht
  rw [heq]
  exact hcs.target hch

theorem perform_failed (h : Reachable db) (c : Call) {id : Uuid}
    (hst : db.stateOf id = some .failed) :
    (perform c db).2.stateOf id = some (if c.retries id db then .queued else .failed) := by
  obtain ⟨hsound, hlog⟩ := h.logged
  cases happ : c.applied db with
  | false => simp [(perform_unapplied hsound happ).1, Call.retries, happ, hst]
  | true =>
      cases hretry : c.op.retryOf id with
      | true =>
          have ht : c.op.target db id = some .queued := by
            unfold Op.retryOf at hretry
            split at hretry
            · rename_i hop
              simpa [hop, Op.target] using hretry
            · cases hretry
          simpa [Call.retries, hretry, happ] using perform_target hsound happ ht
      | false =>
          obtain ⟨cs, mid, hmakes, hcs, heq⟩ :=
            c.applied_changes (P := fun _ => True) (fun _ => trivial) hsound happ
          have hcount := hmakes.count_retried id
          rw [hretry] at hcount
          have hmid := hcs.failed_stays hsound.wf hlog hst (List.count_eq_zero.mp hcount)
          rw [heq]
          simpa [Call.retries, hretry] using hmid

end Calls

/-! ## Runs -/

/-- Along every run finished attempts keep their rows, decided jobs their states,
and events and artifacts are only added. A failed job becomes queued by an
accepted retry and is otherwise left failed. The first accepted cancel or
completion of a job determines its state for the rest of the run. -/
theorem history_stable [Sha256] (db : Db) (h : Reachable db) :
    (∀ ds,
      (∀ a ∈ db.attempts, a.state.active = false → (exec ds db).attempt? a.id = some a) ∧
      (∀ j ∈ db.jobs, j.state = .succeeded ∨ j.state = .cancelled →
        (exec ds db).stateOf j.id = some j.state) ∧
      db.events <+: (exec ds db).events ∧ db.artifacts <+: (exec ds db).artifacts) ∧
    (∀ c, ∀ j ∈ db.jobs, j.state = .failed →
      (perform c db).2.stateOf j.id = some (if c.retries j.id db then .queued else .failed)) ∧
    ∀ c job st, c.applied db = true → c.op.target db job = some st →
      st = .succeeded ∨ st = .cancelled →
      ∀ ds, (exec ds (perform c db).2).stateOf job = some st := by
  have hwf := h.logged.1.wf
  have hstate : ∀ j ∈ db.jobs, db.stateOf j.id = some j.state := fun j hj => by
    rw [Db.stateOf, hwf.job_of_mem hj]
    rfl
  have hdecided : ∀ {st : JobState}, st = .succeeded ∨ st = .cancelled → st.decided = true := by
    rintro st (rfl | rfl) <;> rfl
  refine ⟨fun ds => ?_, fun c j hj hfail => ?_, fun c job st happ ht hst ds => ?_⟩
  · have hs := exec_settles h ds
    exact ⟨fun a ha hact => hs.attempt (hwf.attempt_of_mem ha) hact,
      fun j hj hst => hs.job (hstate j hj) (hdecided hst), hs.grows.events, hs.grows.artifacts⟩
  · exact perform_failed h c (hfail ▸ hstate j hj)
  · exact (exec_settles (h.perform c) ds).job (perform_target h.logged.1 happ ht) (hdecided hst)

/-- A cancel that arrives after the completion. -/
theorem history_stable_sample :
    (@exec Sample.digest
      [⟨Sample.server, .action Sample.jobID.text .cancel "5", Sample.oracle 6000⟩]
      (@perform Sample.digest Sample.completeCall
        (@exec Sample.digest [Sample.startCall] Sample.leasedDb)).2).stateOf Sample.jobID
      = some .succeeded := by
  have hstart := @Reachable.exec Sample.digest _ Sample.leased_reachable [Sample.startCall]
  exact (@history_stable Sample.digest _ hstart).2.2 Sample.completeCall Sample.jobID .succeeded
    (by decide +kernel) (by decide +kernel) (.inl rfl) _

end Rungrid
