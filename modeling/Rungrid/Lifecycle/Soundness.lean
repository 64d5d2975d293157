-- SUMMARY: The transactions of the store make nothing but the listed changes, each under its guard.
import Rungrid.Lifecycle.Effect

/-!
# Transactions as sequences of changes

One lemma for each program of the store: a successful run is a sequence of
changes, and the lemma says which. `mutate_runs` does the same for the receipt.
-/

namespace Rungrid

open Prog

/-! ## Statements -/

section Statements

variable {α : Type} {P : Oracle → Prop} {db db' : Db} {b : α}

/-- A statement that cannot fail. -/
theorem runs_total {st : Stmt} {f : st.Result → Prog α} {r : Oracle → st.Result}
    {ws : Oracle → List Write} (heval : ∀ o, st.eval o db db = .ok (r o, ws o))
    (h : Runs P (sql st >>= f) db b db') :
    ∃ o, P o ∧ Runs P (f (r o)) (db.applyAll (ws o)) b db' := by
  obtain ⟨o, r', ws', ho, he, hk⟩ := runs_sql_bind.mp h
  rw [heval o] at he
  cases he
  exact ⟨o, ho, hk⟩

/-- A statement that only reads. -/
theorem runs_read {st : Stmt} {f : st.Result → Prog α} {r : Oracle → st.Result}
    (heval : ∀ o, st.eval o db db = .ok (r o, [])) (h : Runs P (sql st >>= f) db b db') :
    ∃ o, P o ∧ Runs P (f (r o)) db b db' :=
  runs_total heval h

@[simp] theorem updateRow_some {ρ : Type} (row : ρ) (write : ρ → Write) :
    updateRow (some row) write = [write row] := rfl

theorem runs_insertEvent {job : Uuid} {attempt : Option Uuid} {kind : EventType}
    {payload : EventPayload} {f : Unit → Prog α}
    (h : Runs P (sql (.insertEvent job attempt kind payload) >>= f) db b db') :
    ∃ o, P o ∧
      Runs P (f ()) (db.apply (.insertEvent (db.newEvent o job attempt kind payload))) b db' := by
  obtain ⟨o, r, ws, ho, he, hk⟩ := runs_sql_bind.mp h
  simp only [Stmt.eval] at he
  split at he
  · cases he
  split at he
  · cases he
  split at he
  · cases he
  · cases he
    exact ⟨o, ho, hk⟩

theorem runs_insertJob {id : Uuid} {j : Job} {f : Bool → Prog α}
    (h : Runs P (sql (.insertJob id j) >>= f) db b db') :
    (∃ row, db.jobByKey? j.idempotencyKey = some row ∧ Runs P (f false) db b db') ∨
      ∃ o, P o ∧ db.jobByKey? j.idempotencyKey = none ∧ db.job? id = none ∧
        Runs P (f true) (db.apply (.insertJob (j.newRow id o))) b db' := by
  obtain ⟨o, r, ws, ho, he, hk⟩ := runs_sql_bind.mp h
  simp only [Stmt.eval] at he
  split at he
  · cases he
  split at he
  · cases he
  split at he
  · cases he
  split at he
  · rename_i hkey
    cases he
    obtain ⟨row, hrow⟩ := Option.isSome_iff_exists.mp hkey
    exact .inl ⟨row, hrow, hk⟩
  · rename_i hkey
    split at he
    · cases he
    · rename_i hid
      cases he
      exact .inr ⟨o, ho, by simpa using hkey, by simpa using hid, hk⟩

theorem runs_setJob {id : Uuid} {state : JobState} {max : Int} {f : Unit → Prog α} {j : JobRec}
    (hj : db.job? id = some j) (h : Runs P (sql (.setJob id state max) >>= f) db b db') :
    ∃ o, P o ∧ Runs P (f ())
      (db.apply (.putJob { j.setState state (o.clock 0) with maxAttempts := max })) b db' := by
  obtain ⟨o, r, ws, ho, he, hk⟩ := runs_sql_bind.mp h
  simp only [Stmt.eval] at he
  split at he
  · cases he
  split at he
  · cases he
  · simp only [hj, reread_self, updateRow_some] at he
    cases he
    exact ⟨o, ho, hk⟩

theorem runs_setJobState {id : Uuid} {state : JobState} {f : Unit → Prog α} {j : JobRec}
    (hj : db.job? id = some j) (h : Runs P (sql (.setJobState id state) >>= f) db b db') :
    ∃ o, P o ∧ Runs P (f ()) (db.apply (.putJob (j.setState state (o.clock 0)))) b db' := by
  obtain ⟨o, ho, hk⟩ := runs_total (fun _ => rfl) h
  simp only [hj, reread_self, updateRow_some] at hk
  exact ⟨o, ho, hk⟩

theorem runs_finishAttempt {id : Uuid} {state : AttemptState} {exitCode : Int} {reason : String}
    {f : Unit → Prog α} {a : AttemptRec} (ha : db.attempt? id = some a)
    (h : Runs P (sql (.finishAttempt id state exitCode reason) >>= f) db b db') :
    ∃ o, P o ∧ Runs P (f ())
      (db.apply (.putAttempt (a.finish state exitCode reason (o.clock 0)))) b db' := by
  obtain ⟨o, r, ws, ho, he, hk⟩ := runs_sql_bind.mp h
  simp only [Stmt.eval] at he
  split at he
  · cases he
  split at he
  · cases he
  · simp only [ha, reread_self, updateRow_some] at he
    cases he
    exact ⟨o, ho, hk⟩

theorem runs_insertWorker {r : Request} {f : Unit → Prog α}
    (h : Runs P (sql (.insertWorker r) >>= f) db b db') :
    (∃ w, db.worker? r.workerID = some w ∧ Runs P (f ()) db b db') ∨
      ∃ o, P o ∧ db.worker? r.workerID = none ∧
        Runs P (f ()) (db.apply (.insertWorker (r.newWorker o))) b db' := by
  obtain ⟨o, _, ws, ho, he, hk⟩ := runs_sql_bind.mp h
  simp only [Stmt.eval] at he
  split at he
  · cases he
  split at he
  · cases he
  split at he
  · cases he
  split at he
  · rename_i hw
    cases he
    obtain ⟨w, hw⟩ := Option.isSome_iff_exists.mp hw
    exact .inl ⟨w, hw, hk⟩
  · rename_i hw
    cases he
    exact .inr ⟨o, ho, by simpa using hw, hk⟩

theorem runs_insertAttempt {id job : Uuid} {worker : String} {token : Uuid}
    {leaseSeconds timeout : Int} {f : Int × Time × Time → Prog α}
    (h : Runs P (sql (.insertAttempt id job worker token leaseSeconds timeout) >>= f) db b db') :
    let row := newAttempt id job (db.nextNumber job) worker token leaseSeconds timeout
    ∃ o, P o ∧ db.attemptTaken id job (db.nextNumber job) = false ∧
      Runs P (f (db.nextNumber job, (row o).leaseExpiresAt, o.clock 3))
        (db.apply (.insertAttempt (row o))) b db' := by
  obtain ⟨o, _, ws, ho, he, hk⟩ := runs_sql_bind.mp h
  simp only [Stmt.eval] at he
  split at he
  · cases he
  split at he
  · cases he
  · rename_i hfree
    split at he
    · cases he
    · cases he
      exact ⟨o, ho, by simpa using hfree, hk⟩

theorem runs_insertArtifact {id job attempt : Uuid} {x : Artifact} {f : Unit → Prog α}
    (h : Runs P (sql (.insertArtifact id job attempt x) >>= f) db b db') :
    ∃ o kind, P o ∧ ArtifactKind.parse x.kind = some kind ∧ db.artifact? id = none ∧
      db.artifactByKey? x.objectKey = none ∧
      Runs P (f ()) (db.apply (.insertArtifact (x.newRow id job attempt kind o))) b db' := by
  obtain ⟨o, _, ws, ho, he, hk⟩ := runs_sql_bind.mp h
  simp only [Stmt.eval] at he
  split at he
  · cases he
  split at he
  · cases he
  · rename_i kind hkind
    split at he
    · cases he
    split at he
    · cases he
    · rename_i hfree
      split at he
      · cases he
      · cases he
        rw [Bool.or_eq_true, not_or, Option.not_isSome_iff_eq_none,
          Option.not_isSome_iff_eq_none] at hfree
        exact ⟨o, kind, ho, hkind, hfree.1, hfree.2, hk⟩

end Statements

/-! ## Submit -/

section Submit

variable {P : Oracle → Prop} {s : Store} {db db' : Db}

theorem runs_lockKey {key : String} {f : Unit → Prog Unit} {u : Unit}
    (h : Runs P (sql (.lockKey key) >>= f) db u db') :
    Text.hasNul key = false ∧ Runs P (f ()) db u db' := by
  obtain ⟨o, r, ws, _, he, hk⟩ := runs_sql_bind.mp h
  simp only [Stmt.eval] at he
  split at he
  · cases he
  · rename_i hnul
    cases he
    exact ⟨by simpa using hnul, hk⟩

theorem lockKeys_runs {keys : List String} {u : Unit} (h : Runs P (Store.lockKeys keys) db u db') :
    db' = db := by
  induction keys with
  | nil => exact (runs_done.mp h).2
  | cons key keys ih =>
      exact ih (runs_lockKey h).2

/-- The loop submits new jobs and changes nothing else. -/
theorem submitLoop_runs {js : List Job} {out rows : List JobRow} (hvalid : ∀ j ∈ js, j.Valid)
    (h : Runs P (Store.submitLoop js out) db rows db') :
    ∃ cs, Changes P s db cs db' ∧ ∀ c ∈ cs, ∃ id, c = .submitted id := by
  induction js generalizing out db with
  | nil =>
      obtain ⟨-, rfl⟩ := runs_done.mp h
      exact ⟨[], .nil, by simp⟩
  | cons j js ih =>
      have hj := hvalid j List.mem_cons_self
      have hjs := fun j' h' => hvalid j' (List.mem_cons_of_mem _ h')
      obtain ⟨oid, hoid, h⟩ := runs_read (fun _ => rfl) h
      rcases runs_insertJob h with ⟨row, hrow, h⟩ | ⟨o, ho, hkey, hid, h⟩
      · obtain ⟨_, _, h⟩ := runs_read (fun _ => rfl) h
        split at h
        · exact absurd h not_runs_fail
        split at h
        · exact absurd h not_runs_fail
        · exact ih hjs h
      · obtain ⟨_, _, h⟩ := runs_read (fun _ => rfl) h
        split at h
        · exact absurd h not_runs_fail
        split at h
        · exact absurd h not_runs_fail
        · obtain ⟨oe, hoe, h⟩ := runs_insertEvent h
          obtain ⟨cs, hcs, hall⟩ := ih hjs h
          refine ⟨.submitted _ :: cs, .cons (.submitted hj hkey hid ho hoe) hcs, ?_⟩
          rintro c (_ | ⟨_, hc⟩)
          · exact ⟨_, rfl⟩
          · exact hall c hc

theorem submit_runs {jobs : List Job} {rows : List JobRow}
    (h : Runs P (Store.submit jobs) db rows db') :
    ∃ cs, Changes P s db cs db' ∧ ∀ c ∈ cs, ∃ id, c = .submitted id := by
  unfold Store.submit at h
  split at h
  · exact absurd h not_runs_fail
  split at h
  · exact absurd h not_runs_fail
  · rename_i hval
    obtain ⟨_, mid, hlock, h⟩ := runs_bind.mp h
    rw [lockKeys_runs hlock] at h
    exact submitLoop_runs (fun j hj => List.findSome?_eq_none_iff.mp hval j hj) h

end Submit

/-! ## Action -/

section Action

variable {P : Oracle → Prop} {s : Store} {db db' : Db}

/-- The index on active attempts leaves `cancel` at most one to update. -/
theorem Db.WF.cancellable (h : db.WF) (job : Uuid) :
    (db.cancellable db job = [] ∧ ∀ a ∈ db.attempts, a.jobID = job → a.state.active = false) ∨
      ∃ a, db.cancellable db job = [a] ∧ db.attempt? a.id = some a ∧ a.jobID = job ∧
        a.state.active = true := by
  have hself : db.cancellable db job
      = db.attempts.filter (fun a => a.jobID = job && a.state.active) := by
    rw [Db.cancellable, List.filterMap_congr (g := some), List.filterMap_some,
      List.filter_filter]
    · simp only [Bool.and_self]
    · intro a ha
      exact h.attempt_of_mem (List.mem_of_mem_filter ha)
  have hprop : ∀ a ∈ db.cancellable db job, a ∈ db.attempts ∧ a.jobID = job ∧ a.state.active := by
    simp [hself]
  cases hl : db.cancellable db job with
  | nil =>
      left
      refine ⟨rfl, fun a ha hjob => ?_⟩
      rw [hself, List.filter_eq_nil_iff] at hl
      simpa [hjob] using hl a ha
  | cons a as =>
      right
      rw [hl] at hprop
      obtain ⟨ha, hjob, hact⟩ := hprop a List.mem_cons_self
      refine ⟨a, ?_, h.attempt_of_mem ha, hjob, hact⟩
      cases as with
      | nil => rfl
      | cons b bs =>
          obtain ⟨hb, hjob', hact'⟩ := hprop b (by simp)
          have hab := h.oneActive a ha b hb (hjob.trans hjob'.symm) hact hact'
          have hnodup : (a :: b :: bs).Nodup := by
            rw [← hl, hself]
            exact (List.Nodup.of_map _ h.attempts).filter _
          simp [hab] at hnodup

theorem finishAction_runs {id : Uuid} {a : Action} {requestID : String} {state : JobState}
    {max : Int} {res : Response} {j : JobRec} (hj : db.job? id = some j)
    (h : Runs P (Store.finishAction id a requestID state max) db res db') :
    ∃ oj oe, P oj ∧ P oe ∧
      db' = db.applyAll [.putJob { j.setState state (oj.clock 0) with maxAttempts := max },
        .insertEvent (db.newEvent oe id none (.action a) (.action requestID))] := by
  obtain ⟨oj, hoj, h⟩ := runs_setJob hj h
  obtain ⟨oe, hoe, h⟩ := runs_insertEvent h
  obtain ⟨_, _, h⟩ := runs_read (fun _ => rfl) h
  split at h
  · exact absurd h not_runs_fail
  · obtain ⟨-, rfl⟩ := runs_done.mp h
    exact ⟨oj, oe, hoj, hoe, rfl⟩

/-- The change an accepted action makes. -/
def Action.change (a : Action) (job : Uuid) : Change :=
  match a with
  | .retry => .retried job
  | _ => .cancelled job

theorem actionBody_runs {id : String} {a : Action} {requestID : String} {res : Response}
    (hwf : db.WF) (h : Runs P (Store.actionBody id a requestID) db res db') :
    ∃ job, Uuid.parse id = some job ∧ (a = .cancel ∨ a = .retry) ∧
      Effect P s db (a.change job) db' := by
  unfold Store.actionBody at h
  split at h
  · exact absurd h not_runs_fail
  · rename_i job hparse
    refine ⟨job, hparse, ?_⟩
    obtain ⟨_, _, h⟩ := runs_read (fun _ => rfl) h
    rw [reread_self] at h
    cases hj : db.job? job with
    | none =>
        rw [hj] at h
        exact absurd h not_runs_fail
    | some j =>
        rw [hj] at h
        obtain rfl := Db.job?_id hj
        cases a with
        | cancel =>
            refine ⟨.inl rfl, ?_⟩
            dsimp only [Option.map_some, JobRec.row] at h
            split at h
            · exact absurd h not_runs_fail
            rename_i hst
            rw [not_or] at hst
            split at h
            · rename_i hnc
              obtain ⟨o, ho, h⟩ := runs_total (fun _ => rfl) h
              rcases hwf.cancellable j.id with ⟨hnone, hno⟩ | ⟨a, hone, ha, hjob, hact⟩
              · rw [hnone] at h
                obtain ⟨oj, oe, hoj, hoe, rfl⟩ := finishAction_runs hj h
                exact .cancelledIdle hj hst.1 hst.2 (fun _ => hno) hoj hoe
              · rw [hone] at h
                have hj' : (db.apply (.putAttempt (a.cancel (o.clock 0)))).job? j.id = some j := hj
                obtain ⟨oj, oe, hoj, hoe, rfl⟩ := finishAction_runs hj' h
                exact .cancelled hj hst.1 hst.2 hnc ha hjob hact ho hoj hoe
            · rename_i hc
              obtain ⟨oj, oe, hoj, hoe, rfl⟩ := finishAction_runs hj h
              exact .cancelledIdle hj hst.1 hst.2 (fun hne => absurd hne hc) hoj hoe
        | retry =>
            refine ⟨.inr rfl, ?_⟩
            dsimp only [Option.map_some, JobRec.row] at h
            split at h
            · exact absurd h not_runs_fail
            · rename_i hst
              obtain ⟨oj, oe, hoj, hoe, rfl⟩ := finishAction_runs hj h
              exact .retried hj (not_not.mp hst) hoj hoe
        | unknown name => exact absurd h not_runs_fail

end Action

/-! ## RPC: registration and placement -/

section Worker

variable {P : Oracle → Prop} {s : Store} {db db' : Db}

/-- The comparison of a registration with the stored row. -/
theorem runs_lockWorker_registered {r : Request} {res : Response}
    (h : Runs P (sql (.lockWorker r.workerID) >>= fun row =>
      match row with
      | none => .fail (.db .noRows)
      | some w => if w.sessionID ≠ r.sessionID ∨ w.capacity ≠ r.resources then .fail (.conflict none)
          else pure .registered) db res db') :
    db' = db ∧ res = .registered ∧ ∃ w, db.worker? r.workerID = some w ∧
      w.sessionID = r.sessionID ∧ w.capacity = r.resources := by
  obtain ⟨_, _, h⟩ := runs_read (fun _ => rfl) h
  rw [reread_self] at h
  split at h
  · exact absurd h not_runs_fail
  · rename_i w hw
    split at h
    · exact absurd h not_runs_fail
    · rename_i hsame
      simp only [ne_eq, not_or, not_not] at hsame
      obtain ⟨rfl, rfl⟩ := runs_done.mp h
      exact ⟨rfl, rfl, w, hw, hsame.1, hsame.2⟩

theorem registerBody_runs {r : Request} {res : Response}
    (h : Runs P (Store.registerBody r) db res db') :
    ∃ cs, Changes P s db cs db' ∧ (cs = [] ∨ cs = [.registered r.workerID]) ∧
      res = .registered ∧ ∃ w, db'.worker? r.workerID = some w ∧ w.sessionID = r.sessionID ∧
        w.capacity = r.resources := by
  unfold Store.registerBody at h
  split at h
  · exact absurd h not_runs_fail
  rename_i hvalid
  simp only [not_or, not_not] at hvalid
  -- Both cases end with the comparison against the stored row.
  rcases runs_insertWorker h with ⟨w, hw, h⟩ | ⟨o, ho, hnone, h⟩
  · obtain ⟨rfl, hres, hrow⟩ := runs_lockWorker_registered h
    exact ⟨[], .nil, .inl rfl, hres, hrow⟩
  · obtain ⟨rfl, hres, hrow⟩ := runs_lockWorker_registered h
    exact ⟨[.registered r.workerID], .one (.registered hvalid.1 hnone ho), .inr rfl, hres, hrow⟩

/-- The job the placement query picks is stored and fits. -/
theorem pickJob_some {snap : Db} {o : Oracle} {limit : Resources} {row : JobRow}
    (h : ((snap.placement limit).findSome? (fun j =>
      if o.locked j.id then none else (db.job? j.id).filter (·.placeable limit))).map JobRec.row
        = some row) :
    ∃ j, row = j.row ∧ db.job? j.id = some j ∧ j.placeable limit = true := by
  obtain ⟨j, hj, rfl⟩ := Option.map_eq_some_iff.mp h
  obtain ⟨j', _, hj'⟩ := List.exists_of_findSome?_eq_some hj
  split at hj'
  · cases hj'
  · obtain ⟨hfind, hp⟩ := Option.filter_eq_some_iff.mp hj'
    exact ⟨j, rfl, by rw [Db.job?_id hfind, hfind], hp⟩

/-- A lease that a server grants to a worker of capacity `cap`, and what it writes. -/
inductive Granted (P : Oracle → Prop) (s : Store) (db : Db) (r : Request) (cap : Resources) :
    Lease → Db → Prop where
  | mk {j : JobRec} {id token : Uuid} {o oj oe : Oracle} :
      db.job? j.id = some j → j.placeable (cap.sub (db.used r.workerID)) = true →
      db.attemptTaken id j.id (db.nextNumber j.id) = false → db.nextNumber j.id ≤ j.maxAttempts →
      P o → P oj → P oe →
      Granted P s db r cap
        ⟨{ j.row with state := .leased }, id, db.nextNumber j.id, token,
          o.clock 0 + seconds (min s.leaseSeconds j.definition.timeoutSeconds), o.clock 3,
          (db.newestCheckpoint j.id).map ArtifactRec.artifact⟩
        (db.applyAll [.insertAttempt (newAttempt id j.id (db.nextNumber j.id) r.workerID token
            s.leaseSeconds j.definition.timeoutSeconds o),
          .putJob (j.setState .leased (oj.clock 0)),
          .insertEvent (db.newEvent oe j.id (some id) .leased
            (.leased r.requestID r.workerID (db.nextNumber j.id)))])

theorem Granted.effect {r : Request} {w : WorkerRec} {l : Lease}
    (h : Granted P s db r w.capacity l db') (hw : db.worker? r.workerID = some w)
    (hact : w.state = .active) : Effect P s db (.leased l.job.id l.attemptID) db' := by
  obtain ⟨hj, hp, hfree, hnum, ho, hoj, hoe⟩ := h
  exact .leased hw hact hj hp hfree hnum ho hoj hoe

/-- A worker that asks for work stays idle or gets a lease. -/
theorem lease_runs {r : Request} {cap : Resources} {res : Response}
    (h : Runs P (s.lease r cap) db res db') :
    (res = .idle ∧ db' = db) ∨ ∃ l, res = .lease l ∧ Granted P s db r cap l db' := by
  obtain ⟨_, _, h⟩ := runs_read (fun _ => rfl) h
  obtain ⟨op, _, h⟩ := runs_read (fun _ => rfl) h
  split at h
  · obtain ⟨hres, hdb⟩ := runs_done.mp h
    exact .inl ⟨hres, hdb⟩
  · rename_i row hrow
    obtain ⟨j, rfl, hj, hp⟩ := pickJob_some hrow
    obtain ⟨oid, _, h⟩ := runs_read (fun _ => rfl) h
    obtain ⟨otok, _, h⟩ := runs_read (fun _ => rfl) h
    obtain ⟨o, ho, hfree, h⟩ := runs_insertAttempt h
    dsimp only at h
    split at h
    · exact absurd h not_runs_fail
    · rename_i hnum
      have hj' : (db.apply (.insertAttempt (newAttempt (Uuid.ID oid.rand) j.id
          (db.nextNumber j.id) r.workerID (Uuid.ID otok.rand) s.leaseSeconds
          j.definition.timeoutSeconds o))).job? j.id = some j := hj
      obtain ⟨oj, hoj, h⟩ := runs_setJobState hj' h
      obtain ⟨_, _, h⟩ := runs_read (fun _ => rfl) h
      obtain ⟨oe, hoe, h⟩ := runs_insertEvent h
      obtain ⟨rfl, rfl⟩ := runs_done.mp h
      exact .inr ⟨_, rfl, .mk hj hp hfree (Int.not_lt.mp hnum) ho hoj hoe⟩

end Worker

/-! ## RPC: attempts -/

section Attempt

variable {P : Oracle → Prop} {s : Store} {db db' : Db}

/-- Recorded artifacts leave jobs and attempts as the fence found them. -/
theorem Fenced.insertArtifact {r : Request} {a : AttemptRec} {j : JobRec} (h : Fenced P db r a j)
    (x : ArtifactRec) : Fenced P (db.apply (.insertArtifact x)) r a j :=
  { h with }

theorem recordArtifacts_runs {r : Request} {a : AttemptRec} {j : JobRec} {xs : List Artifact}
    {u : Unit} (hf : Fenced P db r a j) (hrun : a.state = .running)
    (h : Runs P (Store.recordArtifacts (Store.keyScope j.definition j.id r.attemptID) j.id a.id xs)
      db u db') :
    ∃ n, Changes P s db (List.replicate n (.recorded a.id)) db' ∧ Fenced P db' r a j := by
  induction xs generalizing db with
  | nil =>
      obtain ⟨-, rfl⟩ := runs_done.mp h
      exact ⟨0, .nil, hf⟩
  | cons x xs ih =>
      unfold Store.recordArtifacts at h
      split at h
      · exact absurd h not_runs_fail
      rename_i hok
      obtain ⟨_, _, h⟩ := runs_read (fun _ => rfl) h
      split at h
      · split at h
        · exact absurd h not_runs_fail
        · exact ih hf h
      · obtain ⟨oid, _, h⟩ := runs_read (fun _ => rfl) h
        obtain ⟨o, kind, ho, hkind, hid, hkey, h⟩ := runs_insertArtifact h
        obtain ⟨n, hcs, hf'⟩ := ih (hf.insertArtifact _) h
        refine ⟨n + 1, ?_, hf'⟩
        exact .cons (.recorded hf hrun (by simpa using hok) hkind hid hkey ho) hcs

/-- The changes of an attempt RPC. -/
def Method.attemptChanges (m : Method) (job attempt : Uuid) (cs : List Change) : Prop :=
  match m with
  | .heartbeat => cs = [.renewed attempt]
  | .startAttempt => cs = [.started job attempt] ∨ cs = [.noted attempt]
  | .reportProgress => ∃ n, cs = List.replicate n (.recorded attempt) ++ [.noted attempt]
  | .completeAttempt => ∃ n, cs = List.replicate n (.recorded attempt) ++ [.completed job attempt]
  | .failAttempt => ∃ n, cs = List.replicate n (.recorded attempt) ++ [.failed job attempt]
  | _ => False

theorem accept_runs {m : Method} {r : Request} {job attempt : Uuid} {res : Response}
    (h : Runs P (Store.accept m r job attempt) db res db') :
    ∃ oe, P oe ∧ db' = db.apply (.insertEvent (db.newEvent oe job (some attempt) (.method m)
      r.report)) := by
  obtain ⟨oe, hoe, h⟩ := runs_insertEvent h
  obtain ⟨-, rfl⟩ := runs_done.mp h
  exact ⟨oe, hoe, rfl⟩

theorem finish_runs {m : Method} {r : Request} {a : AttemptRec} {j : JobRec} {state : AttemptState}
    {next : JobState} {res : Response} (ha : db.attempt? a.id = some a) (hj : db.job? j.id = some j)
    (h : Runs P (Store.finish m r j.id a.id state next) db res db') :
    ∃ o oj oe, P o ∧ P oj ∧ P oe ∧
      db' = db.applyAll [.putAttempt (a.finish state r.exitCode r.reason (o.clock 0)),
        .putJob (j.setState next (oj.clock 0)),
        .insertEvent (db.newEvent oe j.id (some a.id) (.method m) r.report)] := by
  obtain ⟨o, ho, h⟩ := runs_finishAttempt ha h
  have hj' : (db.apply (.putAttempt (a.finish state r.exitCode r.reason (o.clock 0)))).job? j.id
      = some j := hj
  obtain ⟨oj, hoj, h⟩ := runs_setJobState hj' h
  obtain ⟨oe, hoe, rfl⟩ := accept_runs h
  exact ⟨o, oj, oe, ho, hoj, hoe, rfl⟩

/-- A report is made on a running attempt and begins with its artifacts. -/
theorem report_recording {r : Request} {a : AttemptRec} {o : Oracle} {scope : String} {job : Uuid}
    {k : Unit → Prog Response} {res : Response}
    (h : Runs P (if (a.check o).state ≠ .running then .fail (.conflict none)
      else if !Store.reportOk r then .fail (.invalid none)
      else Store.recordArtifacts scope job a.id r.artifacts.elems >>= k) db res db') :
    a.state = .running ∧ ∃ u mid,
      Runs P (Store.recordArtifacts scope job a.id r.artifacts.elems) db u mid ∧
      Runs P (k u) mid res db' := by
  split at h
  · exact absurd h not_runs_fail
  rename_i hst
  split at h
  · exact absurd h not_runs_fail
  exact ⟨not_not.mp hst, runs_bind.mp h⟩

private theorem report_runs {r : Request} {a : AttemptRec} {j : JobRec} {o : Oracle}
    {k : Unit → Prog Response} {res : Response} (hf : Fenced P db r a j)
    (h : Runs P (if (a.check o).state ≠ .running then .fail (.conflict none)
      else if !Store.reportOk r then .fail (.invalid none)
      else Store.recordArtifacts (Store.keyScope j.definition j.id r.attemptID) j.id a.id
        r.artifacts.elems >>= k) db res db') :
    a.state = .running ∧ ∃ n mid, Changes P s db (List.replicate n (.recorded a.id)) mid ∧
      Fenced P mid r a j ∧ Runs P (k ()) mid res db' := by
  obtain ⟨hrun, _, mid, hrec, h⟩ := report_recording h
  obtain ⟨n, hcs, hf'⟩ := recordArtifacts_runs (s := s) hf hrun hrec
  exact ⟨hrun, n, mid, hcs, hf', h⟩

theorem attemptBody_runs {m : Method} {r : Request} {a : AttemptRec} {j : JobRec} {o : Oracle}
    {res : Response} (hf : Fenced P db r a j)
    (h : Runs P (s.attemptBody m r j.row a.id (a.check o)) db res db') :
    ∃ cs, Changes P s db cs db' ∧ m.attemptChanges j.id a.id cs := by
  cases m with
  | heartbeat =>
      obtain ⟨o', ho', h⟩ := runs_total (fun _ => rfl) h
      simp only [reread_self, hf.attempt, Option.map_some, updateRow_some] at h
      obtain ⟨-, rfl⟩ := runs_done.mp h
      exact ⟨_, .one (.renewed hf ho'), rfl⟩
  | startAttempt =>
      dsimp only [Store.attemptBody] at h
      split at h
      · rename_i hst
        obtain ⟨o', ho', h⟩ := runs_total (fun _ => rfl) h
        simp only [reread_self, hf.attempt, updateRow_some] at h
        have hj' : (db.apply (.putAttempt (a.start (o'.clock 0)))).job? j.id = some j := hf.job_self
        obtain ⟨oj, hoj, h⟩ := runs_setJobState hj' h
        obtain ⟨oe, hoe, rfl⟩ := accept_runs h
        exact ⟨_, .one (.started hf hst ho' hoj hoe), .inl rfl⟩
      · rename_i hst
        obtain ⟨oe, hoe, rfl⟩ := accept_runs h
        have hrun : a.state = .running := by
          have hact := hf.active
          have hst' : a.state ≠ .leased := hst
          cases hs : a.state <;> simp_all [AttemptState.active]
        exact ⟨_, .one (.noted hf hrun (.inl rfl) hoe), .inr rfl⟩
  | reportProgress =>
      obtain ⟨hrun, n, mid, hcs, hf', h⟩ := report_runs (s := s) hf h
      obtain ⟨oe, hoe, rfl⟩ := accept_runs h
      exact ⟨_, hcs.append (.one (.noted hf' hrun (.inr rfl) hoe)), n, rfl⟩
  | completeAttempt =>
      obtain ⟨hrun, n, mid, hcs, hf', h⟩ := report_runs (s := s) hf h
      dsimp only at h
      split at h
      · exact absurd h not_runs_fail
      · rename_i hexit
        obtain ⟨o, oj, oe, ho, hoj, hoe, rfl⟩ := finish_runs hf'.attempt hf'.job_self h
        exact ⟨_, hcs.append (.one (.completed hf' hrun (not_not.mp hexit) ho hoj hoe)), n, rfl⟩
  | failAttempt =>
      obtain ⟨hrun, n, mid, hcs, hf', h⟩ := report_runs (s := s) hf h
      obtain ⟨o, oj, oe, ho, hoj, hoe, rfl⟩ := finish_runs hf'.attempt hf'.job_self h
      exact ⟨_, hcs.append (.one (.failed hf' hrun ho hoj hoe)), n, rfl⟩
  | registerWorker => exact absurd h not_runs_fail
  | leaseJob => exact absurd h not_runs_fail
  | releaseWorker => exact absurd h not_runs_fail
  | unknown name => exact absurd h not_runs_fail

/-- A request that is not rejected passed the fence. -/
theorem attempt_fenced {m : Method} {r : Request} {res : Response}
    (h : Runs P (s.attempt m r) db res db') :
    ∃ a j o, Fenced P db r a j ∧ Runs P (s.attemptBody m r j.row a.id (a.check o)) db res db' := by
  unfold Store.attempt at h
  split at h
  · rename_i attemptID _ hparse _
    obtain ⟨_, _, h⟩ := runs_read (fun _ => rfl) h
    cases ha : db.attempt? attemptID with
    | none =>
        rw [ha] at h
        exact absurd h not_runs_fail
    | some a =>
        rw [ha] at h
        obtain rfl := Db.attempt?_id ha
        obtain ⟨_, _, h⟩ := runs_read (fun _ => rfl) h
        cases hj : db.job? a.jobID with
        | none =>
            simp only [reread_self, hj] at h
            exact absurd h not_runs_fail
        | some j =>
            simp only [reread_self, hj] at h
            obtain ⟨o, ho, h⟩ := runs_read (fun _ => rfl) h
            simp only [reread_self, ha, Option.map_some] at h
            split at h
            · exact absurd h not_runs_fail
            · rename_i hfence
              exact ⟨a, j, o, ⟨hparse, ha, hj, o, ho, by simpa using hfence⟩, h⟩
  · exact absurd h not_runs_fail

theorem attempt_runs {m : Method} {r : Request} {res : Response}
    (h : Runs P (s.attempt m r) db res db') :
    ∃ a j, Fenced P db r a j ∧ ∃ cs, Changes P s db cs db' ∧ m.attemptChanges j.id a.id cs := by
  obtain ⟨a, j, o, hf, hbody⟩ := attempt_fenced h
  exact ⟨a, j, hf, attemptBody_runs hf hbody⟩

end Attempt

/-! ## RPC: the methods of a worker -/

section WorkerBody

variable {P : Oracle → Prop} {s : Store} {db db' : Db}

/-- The changes a worker's request makes after its heartbeat, by method. -/
inductive Served (P : Oracle → Prop) (db : Db) (r : Request) : Method → List Change → Prop where
  | idle : Served P db r .leaseJob []
  | leased {job attempt : Uuid} : Served P db r .leaseJob [.leased job attempt]
  | released : Served P db r .releaseWorker [.drained r.workerID]
  | alive : r.attemptID = "" → Served P db r .heartbeat []
  | attempt {m : Method} {a : AttemptRec} {j : JobRec} {cs : List Change} :
      Fenced P db r a j → m.attemptChanges j.id a.id cs → Served P db r m cs

theorem workerBody_runs {m : Method} {r : Request} {res : Response}
    (h : Runs P (s.workerBody m r) db res db') :
    ∃ w, db.worker? r.workerID = some w ∧ w.sessionID = r.sessionID ∧
      ∃ cs, Changes P s db (.touched r.workerID :: cs) db' ∧ Served P db r m cs := by
  obtain ⟨_, _, h⟩ := runs_read (fun _ => rfl) h
  rw [reread_self] at h
  cases hw : db.worker? r.workerID with
  | none =>
      rw [hw] at h
      exact absurd h not_runs_fail
  | some w =>
      rw [hw] at h
      refine ⟨w, rfl, ?_⟩
      dsimp only at h
      split at h
      · exact absurd h not_runs_fail
      rename_i hsession
      refine ⟨not_not.mp hsession, ?_⟩
      obtain ⟨o, ho, h⟩ := runs_total (fun _ => rfl) h
      simp only [reread_self, hw, updateRow_some] at h
      have htouch : Effect P s db (.touched r.workerID)
          (db.applyAll [.putWorker { w with lastHeartbeatAt := o.clock 0 }]) := .touched hw ho
      have hw' : (db.applyAll [.putWorker { w with lastHeartbeatAt := o.clock 0 }]).worker?
          r.workerID = some { w with lastHeartbeatAt := o.clock 0 } :=
        Db.worker?_putWorker hw rfl
      have hattempt : Runs P (s.attempt m r)
          (db.applyAll [.putWorker { w with lastHeartbeatAt := o.clock 0 }]) res db' →
          ∃ cs, Changes P s db (.touched r.workerID :: cs) db' ∧ Served P db r m cs := by
        intro h
        obtain ⟨a, j, hf, cs, hcs, hm⟩ := attempt_runs h
        exact ⟨cs, .cons htouch hcs, .attempt { hf with } hm⟩
      cases m with
      | leaseJob =>
          dsimp only at h
          split at h
          · exact absurd h not_runs_fail
          · rename_i hact
            rcases lease_runs h with ⟨-, rfl⟩ | ⟨l, -, hl⟩
            · exact ⟨[], .one htouch, .idle⟩
            · have he := hl.effect (w := { w with lastHeartbeatAt := o.clock 0 }) hw' (not_not.mp hact)
              exact ⟨_, .cons htouch (.one he), .leased⟩
      | releaseWorker =>
          obtain ⟨_, _, h⟩ := runs_total (fun _ => rfl) h
          simp only [reread_self, hw', updateRow_some] at h
          obtain ⟨-, rfl⟩ := runs_done.mp h
          exact ⟨_, .cons htouch (.one (.drained hw')), .released⟩
      | heartbeat =>
          dsimp only at h
          split at h
          · rename_i hempty
            obtain ⟨-, rfl⟩ := runs_done.mp h
            exact ⟨[], .one htouch, .alive hempty⟩
          · exact hattempt h
      | startAttempt => exact hattempt h
      | reportProgress => exact hattempt h
      | completeAttempt => exact hattempt h
      | failAttempt => exact hattempt h
      | registerWorker => exact absurd h not_runs_fail
      | unknown name => exact absurd h not_runs_fail

end WorkerBody

/-! ## Reap -/

section Reap

variable {P : Oracle → Prop} {s : Store} {db db' : Db}

/-- The reaper expires attempts and changes nothing else. -/
theorem reapLoop_runs {ids : List Uuid} {n m : Nat} (hwf : db.WF)
    (h : Runs P (Store.reapLoop ids n) db m db') :
    ∃ cs, Changes P s db cs db' ∧ (∀ c ∈ cs, ∃ job a, c = .expired job a) ∧
      m = n + cs.length := by
  induction ids generalizing db n with
  | nil =>
      obtain ⟨rfl, rfl⟩ := runs_done.mp h
      exact ⟨[], .nil, by simp, rfl⟩
  | cons id ids ih =>
      obtain ⟨oq, hoq, h⟩ := runs_read (fun _ => rfl) h
      split at h
      · exact ih hwf h
      · rename_i attemptID number max hfound
        obtain ⟨a, hfind, hmap⟩ := Option.bind_eq_some_iff.mp hfound
        obtain ⟨j, hj, heq⟩ := Option.map_eq_some_iff.mp hmap
        cases heq
        have hcond := List.find?_some hfind
        simp only [Bool.and_eq_true, decide_eq_true_eq] at hcond
        obtain ⟨rfl, hexp⟩ := hcond
        have ha := hwf.attempt_of_mem (List.mem_of_find?_eq_some hfind)
        obtain ⟨o, ho, h⟩ := runs_total (fun _ => rfl) h
        simp only [reread_self, ha, updateRow_some] at h
        have hj' : (db.apply (.putAttempt (a.expire (o.clock 0)))).job? a.jobID = some j := hj
        obtain ⟨oj, hoj, h⟩ := runs_setJobState hj' h
        obtain ⟨oe, hoe, h⟩ := runs_insertEvent h
        rw [← Db.job?_id hj] at h
        have he := Effect.expired (s := s) ha hj hoq hexp ho hoj hoe
        obtain ⟨cs, hcs, hall, hlen⟩ := ih (he.wf hwf) h
        refine ⟨_, .cons he hcs, ?_, by simp only [List.length_cons]; omega⟩
        rintro c (_ | ⟨_, hc⟩)
        · exact ⟨_, _, rfl⟩
        · exact hall c hc

theorem reap_runs {n : Nat} (hwf : db.WF) (h : Runs P Store.reap db n db') :
    ∃ cs, Changes P s db cs db' ∧ (∀ c ∈ cs, ∃ job a, c = .expired job a) ∧ n = cs.length := by
  obtain ⟨_, _, h⟩ := runs_read (fun _ => rfl) h
  obtain ⟨cs, hcs, hall, hlen⟩ := reapLoop_runs (s := s) hwf h
  exact ⟨cs, hcs, hall, by omega⟩

end Reap

end Rungrid
