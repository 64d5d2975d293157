-- SUMMARY: Stale requests about attempts are rejected, and a result is applied at most once.
import Rungrid.Lifecycle.Stability

/-!
# Fencing

A request about an attempt is stale when another attempt of the job has a higher
number, when the attempt has ended, when its lease or deadline is over, or when it
comes from another worker or session or carries another token. A stale request is
rejected unless it repeats one whose receipt is stored. Since a result ends its
attempt, no attempt has two and no job is completed twice.
-/

namespace Rungrid

/-- The methods that are about an attempt. -/
def Method.onAttempt : Method → Bool
  | .heartbeat | .startAttempt | .reportProgress | .completeAttempt | .failAttempt => true
  | _ => false

/-- Why a request about the attempt `a` that is executed with the readings of
`clock` has no claim on it. -/
inductive Stale (db : Db) (clock : Time → Prop) (r : Request) (a : AttemptRec) : Prop where
  | superseded : ¬ db.Highest a.jobID a → Stale db clock r a
  | ended : a.state.active = false → Stale db clock r a
  | lapsed : (∀ t, clock t → a.leaseExpiresAt ≤ t) → Stale db clock r a
  | overdue : (∀ t, clock t → a.deadlineAt ≤ t) → Stale db clock r a
  | worker : r.workerID ≠ a.workerID → Stale db clock r a
  | session {w : WorkerRec} : db.worker? a.workerID = some w → w.sessionID ≠ r.sessionID →
      Stale db clock r a
  | token : r.leaseToken ≠ a.leaseToken.text → Stale db clock r a

/-! ## What an applied request has passed -/

section Fence

variable {P : Oracle → Prop} {db : Db} {cs : List Change} {m : Method} {r : Request}

/-- A request about an attempt that makes changes comes from the session of its
worker and has passed the fence. -/
theorem Op.Makes.fenced (h : (Op.rpc m r).Makes P db cs) (hm : m.onAttempt = true)
    (hid : r.attemptID ≠ "") :
    ∃ w a j cs', db.worker? r.workerID = some w ∧ w.sessionID = r.sessionID ∧ Fenced P db r a j ∧
      cs = .touched r.workerID :: cs' ∧ m.attemptChanges j.id a.id cs' := by
  have hserved : ∃ w cs', db.worker? r.workerID = some w ∧ w.sessionID = r.sessionID ∧
      cs = .touched r.workerID :: cs' ∧ Served P db r m cs' := by
    cases m <;> first | exact h | cases hm
  obtain ⟨w, cs', hw, hsession, rfl, hs⟩ := hserved
  cases hs with
  | alive hempty => exact absurd hempty hid
  | attempt hf hmc => exact ⟨w, _, _, cs', hw, hsession, hf, rfl, hmc⟩
  | _ => cases hm

/-- The changes that requests of registered workers make after their heartbeat. -/
def Change.served : Change → Bool
  | .drained _ | .leased _ _ | .renewed _ | .started _ _ | .noted _ | .recorded _ => true
  | .completed _ _ | .failed _ _ => true
  | _ => false

theorem Op.Makes.served {op : Op} {c : Change} (h : op.Makes P db cs) (hc : c ∈ cs)
    (hk : c.served = true) :
    ∃ m r cs', op = .rpc m r ∧ cs = .touched r.workerID :: cs' ∧ c ∈ cs' ∧ Served P db r m cs' := by
  cases op with
  | submit jobs =>
      obtain ⟨id, rfl⟩ := h c hc
      cases hk
  | reap =>
      obtain ⟨job, attempt, rfl⟩ := h c hc
      cases hk
  | action id act requestID =>
      obtain ⟨job, -, hact, rfl⟩ := h
      obtain rfl := List.mem_singleton.mp hc
      rcases hact with rfl | rfl <;> cases hk
  | rpc m r =>
      by_cases hm : m = .registerWorker
      · subst hm
        rcases h with rfl | rfl
        · cases hc
        · obtain rfl := List.mem_singleton.mp hc
          cases hk
      · have hserved : ∃ cs', cs = .touched r.workerID :: cs' ∧ Served P db r m cs' := by
          cases m <;> first
            | exact absurd rfl hm
            | (obtain ⟨_, cs', _, _, hcs, hs⟩ := h
               exact ⟨cs', hcs, hs⟩)
        obtain ⟨cs', rfl, hs⟩ := hserved
        rcases List.mem_cons.mp hc with rfl | hc'
        · cases hk
        · exact ⟨m, r, cs', rfl, rfl, hc', hs⟩

/-- The changes that requests about attempts make. -/
def Change.ofAttempt : Change → Bool
  | .renewed _ | .started _ _ | .noted _ | .recorded _ | .completed _ _ | .failed _ _ => true
  | _ => false

/-- Such a change is made by a request that has passed the fence. -/
theorem Op.Makes.ofAttempt {op : Op} {c : Change} (h : op.Makes P db cs) (hc : c ∈ cs)
    (hk : c.ofAttempt = true) :
    ∃ m r a j cs', op = .rpc m r ∧ Fenced P db r a j ∧ cs = .touched r.workerID :: cs' ∧
      m.attemptChanges j.id a.id cs' := by
  have hserved : c.served = true := by cases c <;> first | rfl | cases hk
  obtain ⟨m, r, cs', rfl, rfl, hc', hs⟩ := h.served hc hserved
  cases hs with
  | attempt hf hmc => exact ⟨m, r, _, _, cs', rfl, hf, rfl, hmc⟩
  | idle => cases hc'
  | alive => cases hc'
  | leased =>
      obtain rfl := List.mem_singleton.mp hc'
      cases hk
  | released =>
      obtain rfl := List.mem_singleton.mp hc'
      cases hk

/-- The fence passes only the highest-numbered attempt. -/
theorem Fenced.highest {a : AttemptRec} {j : JobRec} (h : Fenced P db r a j) (hwf : db.WF)
    (hlog : db.Logged) : db.Highest a.jobID a := by
  have hcoh := Db.jobCoherent (hlog.coherent hwf (Db.mem_of_job? h.job))
  obtain ⟨b, hb, -, honly⟩ := hcoh.active h.jobActive
  have ha : a ∈ db.attemptsOf j.id :=
    Db.mem_attemptsOf.mpr ⟨Db.mem_of_attempt? h.attempt, h.jobID.symm⟩
  rw [← h.jobID, honly a ha h.active]
  exact hb

theorem Fenced.not_stale {a : AttemptRec} {j : JobRec} {w : WorkerRec} {clock : Time → Prop}
    (h : Fenced P db r a j) (hwf : db.WF) (hlog : db.Logged)
    (hP : ∀ o, P o → ∀ i, clock (o.clock i)) (hw : db.worker? r.workerID = some w)
    (hsession : w.sessionID = r.sessionID) : ¬ Stale db clock r a := by
  obtain ⟨⟨hworker, htoken⟩, ⟨o, ho, hvalid⟩, -, hact⟩ := h.fence
  simp only [AttemptRec.validAt, Bool.and_eq_true, decide_eq_true_eq] at hvalid
  rintro (hs | hs | hs | hs | hs | ⟨hw', hs⟩ | hs)
  · exact hs (h.highest hwf hlog)
  · rw [hact] at hs
    cases hs
  · exact absurd (hs _ (hP o ho 0)) (not_le.mpr hvalid.1)
  · exact absurd (hs _ (hP o ho 1)) (not_le.mpr hvalid.2)
  · exact hs hworker.symm
  · rw [hworker, hw] at hw'
    obtain rfl := Option.some.inj hw'
    exact hs hsession
  · exact hs htoken.symm

end Fence

/-! ## Results are applied at most once -/

section Once

variable {P : Oracle → Prop} {s : Store} {db db' : Db}

/-- The attempt is stored and has ended. -/
def Db.ended (db : Db) (id : Uuid) : Prop := ∃ a, db.attempt? id = some a ∧ a.state.active = false

theorem Db.Settles.ended {id : Uuid} (h : db.Settles db') (hend : db.ended id) : db'.ended id := by
  obtain ⟨a, ha, hact⟩ := hend
  exact ⟨a, h.attempt ha hact, hact⟩

/-- The attempt a change ends with a result. -/
def Change.result : Change → Option Uuid
  | .completed _ attempt | .failed _ attempt => some attempt
  | _ => none

theorem Effect.ended {c : Change} (h : Effect P s db c db') {id : Uuid}
    (hc : c.result = some id) : db'.ended id := by
  cases h <;> simp only [Change.result, reduceCtorEq, Option.some.injEq] at hc <;> subst hc
  case completed hf _ _ _ _ _ => exact ⟨_, Db.attempt?_putAttempt hf.attempt rfl, rfl⟩
  case failed hf _ _ _ _ => exact ⟨_, Db.attempt?_putAttempt hf.attempt rfl, rfl⟩

/-- The operation reports the result of the attempt. -/
def Op.resultOf (id : Uuid) : Op → Bool
  | .rpc .completeAttempt r | .rpc .failAttempt r => Uuid.parse r.attemptID = some id
  | _ => false

theorem Request.attemptID_ne {r : Request} {id : Uuid} (h : Uuid.parse r.attemptID = some id) :
    r.attemptID ≠ "" := by
  intro hempty
  rw [hempty] at h
  cases h

/-- A result is applied to an active attempt, and its last change ends it. -/
theorem Op.Makes.result {op : Op} {cs : List Change} {id : Uuid} (h : op.Makes P db cs)
    (hop : op.resultOf id = true) :
    (∃ a, db.attempt? id = some a ∧ a.state.active = true) ∧
      ∃ pre c, cs = pre ++ [c] ∧ c.result = some id := by
  unfold Op.resultOf at hop
  split at hop
  case h_3 => cases hop
  all_goals
    rw [decide_eq_true_eq] at hop
    obtain ⟨w, a, j, cs', -, -, hf, rfl, n, rfl⟩ := h.fenced rfl (Request.attemptID_ne hop)
    obtain rfl := Option.some.inj (hf.named.symm.trans hop)
    exact ⟨⟨a, hf.attempt, hf.active⟩, .touched _ :: List.replicate n (.recorded a.id), _, rfl, rfl⟩

/-- A job that is completed was active. -/
theorem Op.Makes.completes {op : Op} {cs : List Change} {job : Uuid} (h : op.Makes P db cs)
    (hop : op.target db job = some .succeeded) :
    ∃ j, db.job? job = some j ∧ j.state.active = true := by
  unfold Op.target at hop
  split at hop
  · simp at hop
  · simp at hop
  · obtain ⟨w, cs', -, -, rfl, hserved⟩ := h
    cases hserved with
    | attempt hf _ =>
        rw [hf.named, Option.bind_some, hf.attempt] at hop
        simp only [Option.any_some, decide_eq_true_eq, Option.ite_none_right_eq_some] at hop
        exact ⟨_, hop.1 ▸ hf.job, hf.jobActive⟩
  · cases hop

variable [Sha256]

/-- The call is a result of the attempt that is applied, and not the replay of one. -/
def Call.finishes (id : Uuid) (c : Call) (db : Db) : Bool := c.op.resultOf id && c.applied db

/-- The call completes the job and is applied. -/
def Call.completes (job : Uuid) (c : Call) (db : Db) : Bool :=
  c.applied db && c.op.target db job = some .succeeded

theorem perform_finishes {c : Call} {id : Uuid} (h : Reachable db) (hc : c.finishes id db = true) :
    ¬ db.ended id ∧ (perform c db).2.ended id := by
  simp only [Call.finishes, Bool.and_eq_true] at hc
  obtain ⟨cs, mid, hmakes, hcs, heq⟩ :=
    c.applied_changes (P := fun _ => True) (fun _ => trivial) h.logged.1 hc.2
  obtain ⟨⟨a, ha, hact⟩, pre, ch, rfl, hch⟩ := hmakes.result hc.1
  obtain ⟨_, -, hlast⟩ := hcs.split
  refine ⟨?_, ?_⟩
  · rintro ⟨b, hb, hend⟩
    obtain rfl := Option.some.inj (ha.symm.trans hb)
    rw [hact] at hend
    cases hend
  · rw [heq]
    exact hlast.of_one.ended hch

theorem perform_completes {c : Call} {job : Uuid} (h : Reachable db)
    (hc : c.completes job db = true) :
    db.stateOf job ≠ some .succeeded ∧ (perform c db).2.stateOf job = some .succeeded := by
  simp only [Call.completes, Bool.and_eq_true, decide_eq_true_eq] at hc
  refine ⟨?_, perform_target h.logged.1 hc.1 hc.2⟩
  obtain ⟨cs, mid, hmakes, -, -⟩ :=
    c.applied_changes (P := fun _ => True) (fun _ => trivial) h.logged.1 hc.1
  obtain ⟨j, hj, hact⟩ := hmakes.completes hc.2
  intro hst
  rw [Db.stateOf, hj] at hst
  simp only [Option.map_some, Option.some.injEq] at hst
  rw [hst] at hact
  cases hact

end Once

/-! ## Runs -/

/-- A stale request about an attempt that does not repeat one whose receipt is
stored is rejected and changes no row. In every run at most one result of an
attempt is applied, and at most one completion of a job. -/
theorem results_fenced [Sha256] :
    (∀ db, Reachable db → ∀ (c : Call) (m : Method) (r : Request) (a : AttemptRec),
      c.op = .rpc m r → m.onAttempt = true → Uuid.parse r.attemptID = some a.id →
      a ∈ db.attempts → ¬ c.op.Replays db → Stale db c.Reads r a →
      ∃ e, perform c db = (.error e, db)) ∧
    (∀ cs id, (Machine.trace perform cs Db.empty).countP (fun p => p.1.finishes id p.2) ≤ 1) ∧
    ∀ cs job, (Machine.trace perform cs Db.empty).countP (fun p => p.1.completes job p.2) ≤ 1 := by
  refine ⟨fun db h c m r a hop hm hparse ha hrep hstale => ?_, fun cs id => ?_, fun cs job => ?_⟩
  · obtain ⟨hsound, hlog⟩ := h.logged
    cases happ : c.applied db with
    | false =>
        obtain ⟨heq, hcase⟩ := perform_unapplied hsound happ
        obtain ⟨e, he⟩ := hcase.resolve_left hrep
        exact ⟨e, Prod.ext he heq⟩
    | true =>
        obtain ⟨cs, mid, hmakes, -, -⟩ := c.applied_changes
          (P := fun o => ∃ n, o = c.oracle n) (fun n => ⟨n, rfl⟩) hsound happ
        rw [hop] at hmakes
        obtain ⟨w, b, j, -, hw, hsession, hf, -⟩ := hmakes.fenced hm (Request.attemptID_ne hparse)
        have hab : a = b := hsound.wf.attempt_unique ha (Db.mem_of_attempt? hf.attempt)
          (Option.some.inj (hparse.symm.trans hf.named))
        subst hab
        refine absurd hstale (hf.not_stale hsound.wf hlog ?_ hw hsession)
        rintro o ⟨n, rfl⟩ i
        exact ⟨n, i, rfl⟩
  · exact Machine.countP_trace_le_one (I := Reachable) (D := fun db => db.ended id)
      (fun c db h => h.perform c) (fun c db h hend => (perform_settles h c).ended hend)
      (fun c db h hc => perform_finishes h hc) cs ⟨[], rfl⟩
  · exact Machine.countP_trace_le_one (I := Reachable)
      (D := fun db => db.stateOf job = some .succeeded)
      (fun c db h => h.perform c) (fun c db h hst => (perform_settles h c).job hst rfl)
      (fun c db h hc => perform_completes h hc) cs ⟨[], rfl⟩

/-- A heartbeat of another session, for the attempt that is leased. -/
theorem results_fenced_sample :
    ∃ e, @perform Sample.digest ⟨Sample.server,
      .rpc .heartbeat { Sample.request "3" with sessionID := "old" }, Sample.oracle 4000⟩
      Sample.leasedDb = (.error e, Sample.leasedDb) := by
  refine (@results_fenced Sample.digest).1 _ Sample.leased_reachable _ _ _ Sample.attempt rfl rfl
    (by decide +kernel) (by simp [Sample.leasedDb]) ?_
    (.session (w := Sample.worker) (by decide +kernel) (by decide))
  have hnone : Sample.leasedDb.request? "rpc:Heartbeat:w" "3" = none := by decide +kernel
  rintro ⟨key, row, hkey, hrow, -⟩
  cases hkey
  exact absurd (hnone.symm.trans hrow) (by simp)

end Rungrid
