-- SUMMARY: The changes transactions make to the tables other than the receipts, each with the guard it is made under.
import Rungrid.Lifecycle.Integrity
import Rungrid.Store.Transactions

/-!
# Effects

Every transaction of the store is a sequence of the changes listed here, apart
from its receipt. `Effect P s db c db'` says that a server `s` makes the change
`c` in `db`, with oracles that satisfy `P`, and what has been checked before. The
invariants of the tables are proved from these cases and not from the programs.
-/

namespace Rungrid

/-- The changes, with the rows they are about. -/
inductive Change where
  | submitted (job : Uuid)
  | registered (worker : String)
  | touched (worker : String)
  | drained (worker : String)
  | leased (job attempt : Uuid)
  | renewed (attempt : Uuid)
  | started (job attempt : Uuid)
  | noted (attempt : Uuid)
  | recorded (attempt : Uuid)
  | completed (job attempt : Uuid)
  | failed (job attempt : Uuid)
  | cancelled (job : Uuid)
  | retried (job : Uuid)
  | expired (job attempt : Uuid)
deriving DecidableEq

/-- The event payload of an attempt RPC. -/
def Request.report (r : Request) : EventPayload :=
  .report r.requestID r.workerID r.logs r.reason r.exitCode

/-- The request names the attempt `a` of the job `j` and passed the fence. -/
structure Fenced (P : Oracle → Prop) (db : Db) (r : Request) (a : AttemptRec) (j : JobRec) :
    Prop where
  named : Uuid.parse r.attemptID = some a.id
  attempt : db.attempt? a.id = some a
  job : db.job? a.jobID = some j
  pass : ∃ o, P o ∧ Store.fence r j.row (a.check o) = true

/-- One change. The oracles are those of the statements that make it. -/
inductive Effect (P : Oracle → Prop) (s : Store) : Db → Change → Db → Prop where
  | submitted {db : Db} {def_ : Job} {id : Uuid} {o oe : Oracle} :
      def_.Valid → db.jobByKey? def_.idempotencyKey = none → db.job? id = none → P o → P oe →
      Effect P s db (.submitted id) (db.applyAll
        [.insertJob (def_.newRow id o), .insertEvent (db.newEvent oe id none .submitted .empty)])
  | registered {db : Db} {r : Request} {o : Oracle} :
      r.resources.Valid → db.worker? r.workerID = none → P o →
      Effect P s db (.registered r.workerID) (db.applyAll [.insertWorker (r.newWorker o)])
  | touched {db : Db} {worker : String} {w : WorkerRec} {o : Oracle} :
      db.worker? worker = some w → P o →
      Effect P s db (.touched worker)
        (db.applyAll [.putWorker { w with lastHeartbeatAt := o.clock 0 }])
  | drained {db : Db} {worker : String} {w : WorkerRec} :
      db.worker? worker = some w →
      Effect P s db (.drained worker) (db.applyAll [.putWorker { w with state := .draining }])
  | leased {db : Db} {worker : String} {w : WorkerRec} {j : JobRec} {id token : Uuid}
      {requestID : String} {o oj oe : Oracle} :
      db.worker? worker = some w → w.state = .active → db.job? j.id = some j →
      j.placeable (w.capacity.sub (db.used worker)) = true →
      db.attemptTaken id j.id (db.nextNumber j.id) = false → db.nextNumber j.id ≤ j.maxAttempts →
      P o → P oj → P oe →
      Effect P s db (.leased j.id id) (db.applyAll
        [.insertAttempt (newAttempt id j.id (db.nextNumber j.id) worker token s.leaseSeconds
            j.definition.timeoutSeconds o),
          .putJob (j.setState .leased (oj.clock 0)),
          .insertEvent (db.newEvent oe j.id (some id) .leased
            (.leased requestID worker (db.nextNumber j.id)))])
  | renewed {db : Db} {r : Request} {a : AttemptRec} {j : JobRec} {o : Oracle} :
      Fenced P db r a j → P o →
      Effect P s db (.renewed a.id)
        (db.applyAll [.putAttempt (a.renew s.leaseSeconds (o.clock 0))])
  | started {db : Db} {r : Request} {a : AttemptRec} {j : JobRec} {o oj oe : Oracle} :
      Fenced P db r a j → a.state = .leased → P o → P oj → P oe →
      Effect P s db (.started j.id a.id) (db.applyAll
        [.putAttempt (a.start (o.clock 0)), .putJob (j.setState .running (oj.clock 0)),
          .insertEvent (db.newEvent oe j.id (some a.id) (.method .startAttempt) r.report)])
  | noted {db : Db} {r : Request} {a : AttemptRec} {j : JobRec} {m : Method} {oe : Oracle} :
      Fenced P db r a j → a.state = .running → m = .startAttempt ∨ m = .reportProgress → P oe →
      Effect P s db (.noted a.id) (db.applyAll
        [.insertEvent (db.newEvent oe j.id (some a.id) (.method m) r.report)])
  | recorded {db : Db} {r : Request} {a : AttemptRec} {j : JobRec} {x : Artifact} {id : Uuid}
      {kind : ArtifactKind} {o : Oracle} :
      Fenced P db r a j → a.state = .running →
      Store.artifactOk (Store.keyScope j.definition j.id r.attemptID) x = true →
      ArtifactKind.parse x.kind = some kind →
      db.artifact? id = none → db.artifactByKey? x.objectKey = none → P o →
      Effect P s db (.recorded a.id)
        (db.applyAll [.insertArtifact (x.newRow id j.id a.id kind o)])
  | completed {db : Db} {r : Request} {a : AttemptRec} {j : JobRec} {o oj oe : Oracle} :
      Fenced P db r a j → a.state = .running → r.exitCode = 0 → P o → P oj → P oe →
      Effect P s db (.completed j.id a.id) (db.applyAll
        [.putAttempt (a.finish .succeeded r.exitCode r.reason (o.clock 0)),
          .putJob (j.setState .succeeded (oj.clock 0)),
          .insertEvent (db.newEvent oe j.id (some a.id) (.method .completeAttempt) r.report)])
  | failed {db : Db} {r : Request} {a : AttemptRec} {j : JobRec} {o oj oe : Oracle} :
      Fenced P db r a j → a.state = .running → P o → P oj → P oe →
      Effect P s db (.failed j.id a.id) (db.applyAll
        [.putAttempt (a.finish .failed r.exitCode r.reason (o.clock 0)),
          .putJob (j.setState (retryState a.attemptNumber j.maxAttempts) (oj.clock 0)),
          .insertEvent (db.newEvent oe j.id (some a.id) (.method .failAttempt) r.report)])
  | cancelled {db : Db} {j : JobRec} {a : AttemptRec} {requestID : String} {o oj oe : Oracle} :
      db.job? j.id = some j → j.state ≠ .succeeded → j.state ≠ .failed → j.state ≠ .cancelled →
      db.attempt? a.id = some a → a.jobID = j.id → a.state.active = true → P o → P oj → P oe →
      Effect P s db (.cancelled j.id) (db.applyAll
        [.putAttempt (a.cancel (o.clock 0)), .putJob (j.setState .cancelled (oj.clock 0)),
          .insertEvent (db.newEvent oe j.id none (.action .cancel) (.action requestID))])
  | cancelledIdle {db : Db} {j : JobRec} {requestID : String} {oj oe : Oracle} :
      db.job? j.id = some j → j.state ≠ .succeeded → j.state ≠ .failed →
      (j.state ≠ .cancelled → ∀ a ∈ db.attempts, a.jobID = j.id → a.state.active = false) →
      P oj → P oe →
      Effect P s db (.cancelled j.id) (db.applyAll
        [.putJob (j.setState .cancelled (oj.clock 0)),
          .insertEvent (db.newEvent oe j.id none (.action .cancel) (.action requestID))])
  | retried {db : Db} {j : JobRec} {requestID : String} {oj oe : Oracle} :
      db.job? j.id = some j → j.state = .failed → P oj → P oe →
      Effect P s db (.retried j.id) (db.applyAll
        [.putJob { j.setState .queued (oj.clock 0) with maxAttempts := j.maxAttempts + 1 },
          .insertEvent (db.newEvent oe j.id none (.action .retry) (.action requestID))])
  | expired {db : Db} {a : AttemptRec} {j : JobRec} {oq o oj oe : Oracle} :
      db.attempt? a.id = some a → db.job? a.jobID = some j → P oq →
      a.expiredAt (oq.clock 0) = true → P o → P oj → P oe →
      Effect P s db (.expired j.id a.id) (db.applyAll
        [.putAttempt (a.expire (o.clock 0)),
          .putJob (j.setState (retryState a.attemptNumber j.maxAttempts) (oj.clock 0)),
          .insertEvent (db.newEvent oe j.id (some a.id) .leaseExpired
            (.expired AttemptRec.expiryReason))])

/-! ## What the fence guarantees -/

namespace Fenced

variable {P : Oracle → Prop} {db : Db} {r : Request} {a : AttemptRec} {j : JobRec}

theorem fence (h : Fenced P db r a j) :
    (a.workerID = r.workerID ∧ a.leaseToken.text = r.leaseToken) ∧
      (∃ o, P o ∧ a.validAt (o.clock 0) (o.clock 1) = true) ∧
      j.state.active = true ∧ a.state.active = true := by
  obtain ⟨o, ho, hp⟩ := h.pass
  simp only [Store.fence, Bool.and_eq_true, decide_eq_true_eq] at hp
  obtain ⟨⟨⟨⟨hw, ht⟩, hv⟩, hj⟩, ha⟩ := hp
  exact ⟨⟨hw, ht⟩, ⟨o, ho, hv⟩, hj, ha⟩

theorem active (h : Fenced P db r a j) : a.state.active = true := h.fence.2.2.2

theorem jobActive (h : Fenced P db r a j) : j.state.active = true := h.fence.2.2.1

theorem jobID (h : Fenced P db r a j) : j.id = a.jobID := Db.job?_id h.job

theorem job_self (h : Fenced P db r a j) : db.job? j.id = some j := by rw [h.jobID, h.job]

end Fenced

/-! ## Effects keep the integrity of the tables -/

section Integrity

variable {P : Oracle → Prop} {s : Store} {db db' : Db} {c : Change}

private theorem putJob_ok {j j' : JobRec} (h : db.job? j.id = some j) (hf : j'.fixed = j.fixed) :
    (Write.putJob j').Ok db :=
  ⟨j, by rw [(JobRec.fixed_eq hf).1, h], hf⟩

private theorem putWorker_ok {id : String} {w w' : WorkerRec} (h : db.worker? id = some w)
    (hf : w'.fixed = w.fixed) : (Write.putWorker w').Ok db :=
  ⟨w, by rw [(WorkerRec.fixed_eq hf).1, Db.worker?_id h, h], hf⟩

private theorem putAttempt_ok {a a' : AttemptRec} (h : db.attempt? a.id = some a)
    (hact : a.state.active = true) (hf : a'.fixed = a.fixed) : (Write.putAttempt a').Ok db :=
  ⟨a, by rw [(AttemptRec.fixed_eq hf).1, h], hf, hact⟩

/-- The event that ends a change to a stored job. -/
private theorem event_ok {job : Uuid} {attempt : Option Uuid} {kind : EventType}
    {payload : EventPayload} {o : Oracle} (hev : db'.events = db.events)
    (hj : (db'.job? job).isSome) :
    (Write.insertEvent (db.newEvent o job attempt kind payload)).Ok db' := by
  refine ⟨?_, hj⟩
  simp only [Db.lastEventID, hev, Db.newEvent]
  omega

/-- The three writes of a change to a job and one of its attempts. -/
private theorem transition_ok {w : Write} {j j' : JobRec} {attempt : Option Uuid}
    {kind : EventType} {payload : EventPayload} {o : Oracle} (hw : w.Ok db)
    (hjobs : (db.apply w).jobs = db.jobs) (hev : (db.apply w).events = db.events)
    (h : db.job? j.id = some j) (hf : j'.fixed = j.fixed) :
    Write.AllOk db [w, .putJob j', .insertEvent (db.newEvent o j.id attempt kind payload)] := by
  have h' : (db.apply w).job? j.id = some j := by rw [Db.job?, hjobs]; exact h
  have hj := putJob_ok h' hf
  refine ⟨hw, hj, event_ok (by exact hev) ?_, trivial⟩
  exact (Db.Grows.apply hj).job_isSome (by simp [h'])

/-- A change to a job alone. -/
private theorem action_ok {j j' : JobRec} {attempt : Option Uuid} {kind : EventType}
    {payload : EventPayload} {o : Oracle} (h : db.job? j.id = some j) (hf : j'.fixed = j.fixed) :
    Write.AllOk db [.putJob j', .insertEvent (db.newEvent o j.id attempt kind payload)] := by
  have hj := putJob_ok h hf
  exact ⟨hj, event_ok rfl ((Db.Grows.apply hj).job_isSome (by simp [h])), trivial⟩

/-- An effect is a sequence of admissible writes. -/
theorem Effect.writes (h : Effect P s db c db') :
    ∃ ws, db' = db.applyAll ws ∧ Write.AllOk db ws := by
  cases h with
  | @submitted d id o oe hvalid hkey hid _ _ =>
      have hnew : (Write.insertJob (d.newRow id o)).Ok db := ⟨hid, hkey, hvalid, rfl, rfl⟩
      refine ⟨_, rfl, hnew, event_ok rfl ?_, trivial⟩
      exact Option.isSome_iff_exists.mpr ⟨d.newRow id o, Db.job?_insertJob hid⟩
  | registered hvalid hid _ => exact ⟨_, rfl, ⟨hid, hvalid⟩, trivial⟩
  | touched hw _ => exact ⟨_, rfl, putWorker_ok hw rfl, trivial⟩
  | drained hw => exact ⟨_, rfl, putWorker_ok hw rfl, trivial⟩
  | leased hw _ hj _ hfree _ _ _ _ =>
      have hnew : (db.job? _).isSome ∧ (db.worker? _).isSome :=
        ⟨Option.isSome_iff_exists.mpr ⟨_, hj⟩, Option.isSome_iff_exists.mpr ⟨_, hw⟩⟩
      exact ⟨_, rfl, transition_ok ⟨hfree, hnew⟩ rfl rfl hj rfl⟩
  | renewed hf _ => exact ⟨_, rfl, putAttempt_ok hf.attempt hf.active rfl, trivial⟩
  | started hf _ _ _ _ =>
      exact ⟨_, rfl, transition_ok (putAttempt_ok hf.attempt hf.active rfl) rfl rfl hf.job_self rfl⟩
  | noted hf _ _ _ => exact ⟨_, rfl, event_ok rfl (by simp [hf.job_self]), trivial⟩
  | recorded hf _ _ _ hid hkey _ => exact ⟨_, rfl, ⟨hid, hkey⟩, trivial⟩
  | completed hf _ _ _ _ _ =>
      exact ⟨_, rfl, transition_ok (putAttempt_ok hf.attempt hf.active rfl) rfl rfl hf.job_self rfl⟩
  | failed hf _ _ _ _ =>
      exact ⟨_, rfl, transition_ok (putAttempt_ok hf.attempt hf.active rfl) rfl rfl hf.job_self rfl⟩
  | cancelled hj _ _ _ ha _ hact _ _ _ =>
      exact ⟨_, rfl, transition_ok (putAttempt_ok ha hact rfl) rfl rfl hj rfl⟩
  | cancelledIdle hj _ _ _ _ _ => exact ⟨_, rfl, action_ok hj rfl⟩
  | retried hj _ _ _ => exact ⟨_, rfl, action_ok hj rfl⟩
  | @expired a j oq _ _ _ ha hj _ hexp _ _ _ =>
      have hact : a.state.active = true := by
        simp only [AttemptRec.expiredAt, Bool.and_eq_true] at hexp
        exact hexp.1
      have hself : db.job? j.id = some j := by rw [Db.job?_id hj, hj]
      exact ⟨_, rfl, transition_ok (putAttempt_ok ha hact rfl) rfl rfl hself rfl⟩

theorem Effect.wf (h : Effect P s db c db') (hwf : db.WF) : db'.WF := by
  obtain ⟨ws, rfl, hws⟩ := h.writes
  exact hwf.applyAll hws

theorem Effect.grows (h : Effect P s db c db') : db.Grows db' := by
  obtain ⟨ws, rfl, hws⟩ := h.writes
  exact Db.Grows.applyAll hws

end Integrity

/-! ## The rows an effect replaces -/

/-- How a change moves a job from the row `j` to the row `j'`. -/
inductive Moves (db : Db) (j j' : JobRec) : Change → Prop where
  | lease {c : Change} : j.state = .queued → j'.state = .leased → Moves db j j' c
  | attempt {c : Change} : (∃ a ∈ db.attempts, a.jobID = j.id ∧ a.state.active = true) →
      Moves db j j' c
  | cancel {c : Change} : j.state ≠ .succeeded → j.state ≠ .failed → j'.state = .cancelled →
      Moves db j j' c
  | retry : j.state = .failed → j'.state = .queued → Moves db j j' (.retried j.id)

section Rows

variable {P : Oracle → Prop} {s : Store} {db db' : Db} {c : Change}

/-- An effect leaves the jobs, adds one or moves one. -/
theorem Effect.jobs (h : Effect P s db c db') :
    db'.jobs = db.jobs ∨ (∃ row, db'.jobs = db.jobs ++ [row]) ∨
      ∃ j j', db.job? j.id = some j ∧ db'.jobs = Table.put JobRec.id j' db.jobs ∧
        j'.fixed = j.fixed ∧ Moves db j j' c := by
  have hfenced : ∀ {r a j j'}, Fenced P db r a j → Moves db j j' c := fun hf =>
    .attempt ⟨_, Db.mem_of_attempt? hf.attempt, hf.jobID.symm, hf.active⟩
  cases h with
  | submitted => exact .inr (.inl ⟨_, rfl⟩)
  | leased _ _ hj hp _ _ _ _ _ =>
      simp only [JobRec.placeable, Bool.and_eq_true, decide_eq_true_eq] at hp
      exact .inr (.inr ⟨_, _, hj, rfl, rfl, .lease hp.1 rfl⟩)
  | started hf _ _ _ _ => exact .inr (.inr ⟨_, _, hf.job_self, rfl, rfl, hfenced hf⟩)
  | completed hf _ _ _ _ _ => exact .inr (.inr ⟨_, _, hf.job_self, rfl, rfl, hfenced hf⟩)
  | failed hf _ _ _ _ => exact .inr (.inr ⟨_, _, hf.job_self, rfl, rfl, hfenced hf⟩)
  | cancelled hj hs hf _ _ _ _ _ _ _ =>
      exact .inr (.inr ⟨_, _, hj, rfl, rfl, .cancel hs hf rfl⟩)
  | cancelledIdle hj hs hf _ _ _ => exact .inr (.inr ⟨_, _, hj, rfl, rfl, .cancel hs hf rfl⟩)
  | retried hj hs _ _ => exact .inr (.inr ⟨_, _, hj, rfl, rfl, .retry hs rfl⟩)
  | expired ha hj _ hexp _ _ _ =>
      simp only [AttemptRec.expiredAt, Bool.and_eq_true] at hexp
      have hid := Db.job?_id hj
      have hself := hj
      rw [← hid] at hself
      exact .inr (.inr ⟨_, _, hself, rfl, rfl,
        .attempt ⟨_, Db.mem_of_attempt? ha, hid.symm, hexp.1⟩⟩)
  | _ => exact .inl rfl

/-- An effect leaves the attempts, adds one or changes an active one. -/
theorem Effect.attempts (h : Effect P s db c db') :
    db'.attempts = db.attempts ∨ (∃ row, db'.attempts = db.attempts ++ [row]) ∨
      ∃ a a', db.attempt? a.id = some a ∧ a.state.active = true ∧
        db'.attempts = Table.put AttemptRec.id a' db.attempts ∧ a'.fixed = a.fixed := by
  cases h with
  | leased => exact .inr (.inl ⟨_, rfl⟩)
  | renewed hf _ =>
      exact .inr (.inr ⟨_, _, hf.attempt, hf.active, rfl, rfl⟩)
  | started hf _ _ _ _ =>
      exact .inr (.inr ⟨_, _, hf.attempt, hf.active, rfl, rfl⟩)
  | completed hf _ _ _ _ _ =>
      exact .inr (.inr ⟨_, _, hf.attempt, hf.active, rfl, rfl⟩)
  | failed hf _ _ _ _ =>
      exact .inr (.inr ⟨_, _, hf.attempt, hf.active, rfl, rfl⟩)
  | cancelled _ _ _ _ ha _ hact _ _ _ =>
      exact .inr (.inr ⟨_, _, ha, hact, rfl, rfl⟩)
  | expired ha _ _ hexp _ _ _ =>
      simp only [AttemptRec.expiredAt, Bool.and_eq_true] at hexp
      exact .inr (.inr ⟨_, _, ha, hexp.1, rfl, rfl⟩)
  | _ => exact .inl rfl

end Rows

/-! ## Effects and receipts -/

/-- The same tables with other receipts. -/
def Db.withRequests (db : Db) (rs : List RequestRec) : Db := { db with requests := rs }

@[simp] theorem Db.withRequests_self (db : Db) : db.withRequests db.requests = db := rfl

theorem Db.WF.withRequests {db : Db} (h : db.WF) (rs : List RequestRec) :
    (db.withRequests rs).WF :=
  { h with }

theorem Db.Grows.withRequests {db db' : Db} (h : db.Grows db') (rs rs' : List RequestRec) :
    (db.withRequests rs).Grows (db'.withRequests rs') :=
  { h with }

theorem Fenced.withRequests {P : Oracle → Prop} {db : Db} {r : Request} {a : AttemptRec}
    {j : JobRec} (h : Fenced P db r a j) (rs : List RequestRec) :
    Fenced P (db.withRequests rs) r a j :=
  { h with }

/-- No effect reads or writes a receipt. -/
theorem Effect.withRequests {P : Oracle → Prop} {s : Store} {db db' : Db} {c : Change}
    (h : Effect P s db c db') (rs : List RequestRec) :
    Effect P s (db.withRequests rs) c (db'.withRequests rs) := by
  cases h with
  | submitted hvalid hkey hid h₀ h₁ => exact .submitted hvalid hkey hid h₀ h₁
  | registered hvalid hid h₀ => exact .registered hvalid hid h₀
  | touched hw h₀ => exact .touched hw h₀
  | drained hw => exact .drained hw
  | leased hw hst hj hp hfree hnum h₀ h₁ h₂ => exact .leased hw hst hj hp hfree hnum h₀ h₁ h₂
  | renewed hf h₀ => exact .renewed (hf.withRequests rs) h₀
  | started hf hst h₀ h₁ h₂ => exact .started (hf.withRequests rs) hst h₀ h₁ h₂
  | noted hf hst hm h₀ => exact .noted (hf.withRequests rs) hst hm h₀
  | recorded hf hst hok hk hid hkey h₀ =>
      exact .recorded (hf.withRequests rs) hst hok hk hid hkey h₀
  | completed hf hst hx h₀ h₁ h₂ => exact .completed (hf.withRequests rs) hst hx h₀ h₁ h₂
  | failed hf hst h₀ h₁ h₂ => exact .failed (hf.withRequests rs) hst h₀ h₁ h₂
  | cancelled hj h₁ h₂ h₃ ha hjob hact h₄ h₅ h₆ =>
      exact .cancelled hj h₁ h₂ h₃ ha hjob hact h₄ h₅ h₆
  | cancelledIdle hj h₁ h₂ hno h₃ h₄ => exact .cancelledIdle hj h₁ h₂ hno h₃ h₄
  | retried hj hst h₀ h₁ => exact .retried hj hst h₀ h₁
  | expired ha hj hq hexp h₀ h₁ h₂ => exact .expired ha hj hq hexp h₀ h₁ h₂

/-! ## Sequences of changes -/

/-- A sequence of changes of one transaction. -/
inductive Changes (P : Oracle → Prop) (s : Store) : Db → List Change → Db → Prop where
  | nil {db : Db} : Changes P s db [] db
  | cons {db mid db' : Db} {c : Change} {cs : List Change} :
      Effect P s db c mid → Changes P s mid cs db' → Changes P s db (c :: cs) db'

namespace Changes

variable {P : Oracle → Prop} {s : Store} {db mid db' : Db} {cs cs' : List Change}

theorem one {c : Change} (h : Effect P s db c db') : Changes P s db [c] db' := .cons h .nil

theorem append (h : Changes P s db cs mid) (h' : Changes P s mid cs' db') :
    Changes P s db (cs ++ cs') db' := by
  induction h with
  | nil => exact h'
  | cons he _ ih => exact .cons he (ih h')

theorem split (h : Changes P s db (cs ++ cs') db') :
    ∃ mid, Changes P s db cs mid ∧ Changes P s mid cs' db' := by
  induction cs generalizing db with
  | nil => exact ⟨db, .nil, h⟩
  | cons c cs ih =>
      cases h with
      | cons he hrest =>
          obtain ⟨mid, hcs, hcs'⟩ := ih hrest
          exact ⟨mid, .cons he hcs, hcs'⟩

theorem of_one {c : Change} (h : Changes P s db [c] db') : Effect P s db c db' := by
  cases h with
  | cons he hnil =>
      cases hnil
      exact he

theorem withRequests (h : Changes P s db cs db') (rs : List RequestRec) :
    Changes P s (db.withRequests rs) cs (db'.withRequests rs) := by
  induction h with
  | nil => exact .nil
  | cons he _ ih => exact .cons (he.withRequests rs) ih

/-- A property that every change keeps is kept by a sequence of them. -/
theorem inv {I : Db → Prop}
    (hstep : ∀ {db c db'}, db.WF → I db → Effect P s db c db' → I db')
    (h : Changes P s db cs db') (hwf : db.WF) (hI : I db) : db'.WF ∧ I db' := by
  induction h with
  | nil => exact ⟨hwf, hI⟩
  | cons he _ ih => exact ih (he.wf hwf) (hstep hwf hI he)

theorem wf (h : Changes P s db cs db') (hwf : db.WF) : db'.WF :=
  (h.inv (I := fun _ => True) (fun _ _ _ => trivial) hwf trivial).1

theorem grows (h : Changes P s db cs db') : db.Grows db' := by
  induction h with
  | nil => exact .refl _
  | cons he _ ih => exact he.grows.trans ih

end Changes

end Rungrid
