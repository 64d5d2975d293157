-- SUMMARY: Under the locks its transaction holds, each statement does the same whenever it is redone.
import Rungrid.Isolation.Replay
import Rungrid.Lifecycle.Soundness

/-!
# Exact statements

One lemma for each statement: which locks its transaction has to hold for the
statement to be exact, and what the transaction knows after it. A statement that
locks the row it reads needs none. The statements that are exact only together with
a later one, or not at all, are treated with the transactions they occur in.
-/

namespace Rungrid

namespace Ran

variable {P : Oracle → Prop} {x : Point} {st : Stmt} {o : Oracle} {S C : Db} {ws : List Write}

/-! ## The views of a statement -/

section Views

variable {r : st.Result}

theorem snapView (hs : Ran P x st o S C r ws) (hx : x.Owns) :
    Rely x.locks x.view (S.applyAll x.writes) :=
  hx.view hs.snap

theorem waitView (hs : Ran P x st o S C r ws) (hx : x.Owns) :
    Rely x.locks (S.applyAll x.writes) (C.applyAll x.writes) :=
  (hx.env hs.snap).view hs.wait

theorem tidy (hs : Ran P x st o S C r ws) (hx : x.Owns) : (C.applyAll x.writes).Tidy :=
  hs.wait.tidy.applyAll (hx.env (hs.snap.trans hs.wait)).owned

theorem locks_subset (_ : Ran P x st o S C r ws) : x.locks ⊆ x.locks ++ st.takes r ws :=
  List.subset_append_left _ _

/-- A row of a held job is the same in the snapshot and when the lock is granted. -/
theorem job (hs : Ran P x st o S C r ws) (hx : x.Owns) {id : Uuid} (hl : .job id ∈ x.locks) :
    (S.applyAll x.writes).job? id = (C.applyAll x.writes).job? id :=
  ((hs.waitView hx).jobHeld hl).symm

theorem worker (hs : Ran P x st o S C r ws) (hx : x.Owns) {id : String} (hl : .worker id ∈ x.locks) :
    (S.applyAll x.writes).worker? id = (C.applyAll x.writes).worker? id :=
  ((hs.waitView hx).workerHeld hl).symm

theorem request (hs : Ran P x st o S C r ws) (hx : x.Owns) {scope id : String}
    (hl : .request scope id ∈ x.locks) :
    (S.applyAll x.writes).request? scope id = (C.applyAll x.writes).request? scope id :=
  ((hs.waitView hx).requestHeld hl).symm

theorem attempts (hs : Ran P x st o S C r ws) (hx : x.Owns) {id : Uuid} (hl : .job id ∈ x.locks) :
    (S.applyAll x.writes).attemptsOf id = (C.applyAll x.writes).attemptsOf id :=
  ((hs.waitView hx).attemptsHeld hl).symm

theorem attempt (hs : Ran P x st o S C r ws) (hx : x.Owns) {id : Uuid} {a : AttemptRec}
    (ha : x.view.attempt? id = some a) (hl : .job a.jobID ∈ x.locks) :
    (S.applyAll x.writes).attempt? id = some a ∧ (C.applyAll x.writes).attempt? id = some a := by
  have hS := (hs.snapView hx).attemptHeld ha hl
  exact ⟨hS, (hs.waitView hx).attemptHeld hS hl⟩

/-- While a statement waits, an attempt may change but not its job. -/
theorem attempt_kept (hs : Ran P x st o S C r []) (hx : x.Owns) {id : Uuid} {a : AttemptRec}
    (ha : x.view.attempt? id = some a) :
    ∃ a', (x.after C st r []).view.attempt? id = some a' ∧ a'.jobID = a.jobID := by
  rw [Point.view_after]
  exact ((hs.snapView hx).trans (hs.waitView hx)).attempt ha

/-- A statement that does not write attempts leaves the attempt of a held job as it is. -/
theorem attempt_after (hs : Ran P x st o S C r ws) (hx : x.Owns) {id : Uuid} {a : AttemptRec}
    (ha : x.view.attempt? id = some a) (hl : .job a.jobID ∈ x.locks)
    (hws : ∀ X : Db, (X.applyAll ws).attempt? id = X.attempt? id) :
    (x.after C st r ws).view.attempt? id = some a := by
  rw [Point.view_after, hws]
  exact (hs.attempt hx ha hl).2

/-- A statement that writes nothing. -/
theorem exact_read {hs : Ran P x st o S C r []}
    (h : ∀ {Z : Db}, Rely (x.locks ++ st.takes r []) (C.applyAll x.writes) Z →
      st.eval o Z Z = .ok (r, [])) : hs.Exact :=
  ⟨trivial, fun hZ => ⟨o, [], hs.oracle, h hZ, rfl⟩⟩

theorem allOwned_updateRow {ρ : Type} {L : List Lock} {X : Db} {row : Option ρ} {write : ρ → Write}
    (h : ∀ v, row = some v → (write v).Owned L X) : Write.AllOwned L X (updateRow row write) := by
  cases row with
  | none => trivial
  | some v => exact ⟨h v rfl, trivial⟩

end Views

/-! ## Submit -/

theorem newID {id : Uuid} (hs : Ran P x .newID o S C id ws) : hs.Exact ∧ ws = [] := by
  obtain ⟨rfl, rfl⟩ : Uuid.ID o.rand = id ∧ [] = ws := by simpa [Stmt.eval] using hs.eval
  exact ⟨exact_read (fun _ => rfl), rfl⟩

theorem lockKey {key : String} (hs : Ran P x (.lockKey key) o S C () ws) :
    hs.Exact ∧ .advisory key ∈ x.locks ++ (Stmt.lockKey key).takes () ws := by
  have he := hs.eval
  simp only [Stmt.eval] at he
  split at he
  · cases he
  · rename_i hnul
    cases he
    exact ⟨exact_read (fun _ => by simp only [Stmt.eval, if_neg hnul]),
      by simp [Stmt.takes, Stmt.selects]⟩

/-- The advisory lock on the key decides whether a job is inserted. -/
theorem insertJob {id : Uuid} {j : Job} {inserted : Bool}
    (hs : Ran P x (.insertJob id j) o S C inserted ws) (hvalid : j.Valid)
    (hl : .advisory j.idempotencyKey ∈ x.locks) :
    hs.Exact ∧ ((inserted = false ∧ ws = []) ∨
      (inserted = true ∧ ws = [.insertJob (j.newRow id o)])) := by
  have he := hs.eval
  simp only [Stmt.eval] at he
  split at he
  · cases he
  split at he
  · cases he
  split at he
  · cases he
  rename_i hnul hint hcheck
  split at he
  · rename_i hkey
    cases he
    refine ⟨exact_read (fun {Z} hZ => ?_), .inl ⟨rfl, rfl⟩⟩
    obtain ⟨row, hrow⟩ := Option.isSome_iff_exists.mp hkey
    obtain ⟨row', hrow', -⟩ := hZ.key hrow
    have hkey' : (Z.jobByKey? j.idempotencyKey).isSome := by rw [hrow']; rfl
    simp only [Stmt.eval]
    rw [if_neg hnul, if_neg hint, if_neg hcheck, if_pos hkey']
  · rename_i hkey
    split at he
    · cases he
    rename_i hid
    cases he
    rw [Option.not_isSome_iff_eq_none] at hkey hid
    have hjob : .job id ∈ x.locks ++ (Stmt.insertJob id j).takes true [.insertJob (j.newRow id o)] := by
      simp [Stmt.takes, Write.locks, Job.newRow]
    refine ⟨⟨⟨⟨?_, hid, hkey, hvalid, rfl, rfl⟩, trivial⟩, fun {Z} hZ => ?_⟩, .inr ⟨rfl, rfl⟩⟩
    · intro l hmem
      rcases List.mem_pair.mp hmem with rfl | rfl
      · exact hjob
      · exact hs.locks_subset hl
    · have hkey' := hZ.keyFree (hs.locks_subset hl) hkey
      have hid' := (hZ.jobHeld hjob).trans hid
      refine ⟨o, _, hs.oracle, ?_, rfl⟩
      simp only [Stmt.eval]
      rw [if_neg hnul, if_neg hint, if_neg hcheck, if_neg (by rw [hkey']; simp),
        if_neg (by rw [hid']; simp)]

/-- An event is inserted by a holder of its job. -/
theorem insertEvent {job : Uuid} {att : Option Uuid} {kind : EventType} {payload : EventPayload}
    (hs : Ran P x (.insertEvent job att kind payload) o S C () ws) (hl : .job job ∈ x.locks) :
    hs.Exact ∧ ∃ e, ws = [.insertEvent e] := by
  have he := hs.eval
  simp only [Stmt.eval] at he
  split at he
  · cases he
  split at he
  · cases he
  split at he
  · cases he
  rename_i hnul hjob hatt
  cases he
  have hjob' : ((C.applyAll x.writes).job? job).isSome := by
    rwa [Option.isNone_iff_eq_none, ← ne_eq, Option.ne_none_iff_isSome] at hjob
  refine ⟨⟨⟨⟨?_, hjob'⟩, trivial⟩, fun {Z} hZ => ?_⟩, _, rfl⟩
  · intro l hmem
    rw [List.mem_singleton.mp hmem]
    exact hs.locks_subset hl
  · have hjobZ : ¬ (Z.job? job).isNone := by
      rw [Option.isNone_iff_eq_none, ← ne_eq, Option.ne_none_iff_isSome]
      exact hZ.job hjob'
    have hattZ : ¬ att.any (fun a => (Z.attempt? a).isNone) := by
      cases att with
      | none => simp
      | some a =>
          simp only [Option.any_some, Option.isNone_iff_eq_none] at hatt ⊢
          obtain ⟨row, hrow⟩ := Option.ne_none_iff_exists'.mp hatt
          obtain ⟨row', hrow', -⟩ := hZ.attempt hrow
          rw [hrow']
          simp
    refine ⟨o, _, hs.oracle, (if_neg hnul).trans ((if_neg hjobZ).trans (if_neg hattZ)), rfl⟩

/-! ## Receipts -/

/-- The unique index decides whether a receipt is inserted. -/
theorem insertRequest {scope id hash : String}
    (hs : Ran P x (.insertRequest scope id hash) o S C () ws) :
    hs.Exact ∧ ∀ w ∈ ws, ∃ row, w = .insertRequest row := by
  have he := hs.eval
  simp only [Stmt.eval] at he
  split at he
  · cases he
  rename_i hnul
  split at he
  · rename_i hrow
    cases he
    refine ⟨exact_read (fun {Z} hZ => ?_), by simp⟩
    simp only [Stmt.eval]
    rw [if_neg hnul, if_pos (hZ.request hrow)]
  · rename_i hrow
    cases he
    rw [Option.not_isSome_iff_eq_none] at hrow
    have hl : .request scope id ∈ x.locks ++ (Stmt.insertRequest scope id hash).takes ()
        [.insertRequest ⟨scope, id, hash, none, o.clock 0⟩] := by
      simp [Stmt.takes, Write.locks]
    refine ⟨⟨⟨⟨?_, hrow⟩, trivial⟩, fun {Z} hZ => ⟨o, _, hs.oracle, ?_, rfl⟩⟩, by simp⟩
    · intro l hmem
      rw [List.mem_singleton.mp hmem]
      exact hl
    · have hrow' := (hZ.requestHeld hl).trans hrow
      simp only [Stmt.eval]
      rw [if_neg hnul, if_neg (by rw [hrow']; simp)]

theorem lockRequest {scope id : String} {v : String × Option Response}
    (hs : Ran P x (.lockRequest scope id) o S C (some v) ws) :
    hs.Exact ∧ ws = [] ∧ .request scope id ∈ x.locks ++ (Stmt.lockRequest scope id).takes (some v) ws := by
  have he := hs.eval
  simp only [Stmt.eval, Except.ok.injEq, Prod.mk.injEq] at he
  obtain ⟨hrow, rfl⟩ := he
  have hl : .request scope id ∈ x.locks ++ (Stmt.lockRequest scope id).takes (some v) [] := by
    simp [Stmt.takes, Stmt.selects]
  refine ⟨exact_read (fun {Z} hZ => ?_), rfl, hl⟩
  obtain ⟨row, hrow, hv⟩ := Option.map_eq_some_iff.mp hrow
  obtain ⟨-, -, hrow⟩ := Option.bind_eq_some_iff.mp hrow
  simp only [Stmt.eval, reread_self, hZ.requestHeld hl, hrow, Option.map_some, hv]

theorem setResponse {scope id : String} {response : Response}
    (hs : Ran P x (.setResponse scope id response) o S C () ws) (hx : x.Owns)
    (hl : .request scope id ∈ x.locks) : hs.Exact := by
  have he := hs.eval
  simp only [Stmt.eval, hs.request hx hl, reread_self] at he
  cases he
  refine ⟨allOwned_updateRow fun row hrow => ?_, fun {Z} hZ => ⟨o, _, hs.oracle, ?_, rfl⟩⟩
  · have hkey : row.key = (scope, id) := Table.key_of_find hrow
    obtain ⟨rfl, rfl⟩ := Prod.mk.inj hkey
    refine ⟨fun l hmem => ?_, Option.isSome_of_eq_some hrow⟩
    rw [List.mem_singleton.mp hmem]
    exact hs.locks_subset hl
  · simp only [Stmt.eval, hZ.requestHeld (hs.locks_subset hl), reread_self]

/-! ## Rows of jobs -/

theorem lockJob {id : Uuid} {row : JobRow} (hs : Ran P x (.lockJob id) o S C (some row) ws) :
    hs.Exact ∧ ws = [] ∧ .job id ∈ x.locks ++ (Stmt.lockJob id).takes (some row) ws ∧ row.id = id := by
  have he := hs.eval
  simp only [Stmt.eval, Except.ok.injEq, Prod.mk.injEq] at he
  obtain ⟨hrow, rfl⟩ := he
  have hl : .job id ∈ x.locks ++ (Stmt.lockJob id).takes (some row) [] := by
    simp [Stmt.takes, Stmt.selects]
  obtain ⟨j, hj, hrow⟩ := Option.map_eq_some_iff.mp hrow
  obtain ⟨-, -, hj⟩ := Option.bind_eq_some_iff.mp hj
  refine ⟨exact_read (fun {Z} hZ => ?_), rfl, hl, hrow ▸ Db.job?_id hj⟩
  simp only [Stmt.eval, reread_self, hZ.jobHeld hl, hj, Option.map_some, hrow]

theorem jobByID {id : Uuid} {row : Option JobRow} (hs : Ran P x (.jobByID id) o S C row ws)
    (hx : x.Owns) (hl : .job id ∈ x.locks) : hs.Exact ∧ ws = [] := by
  have he := hs.eval
  simp only [Stmt.eval, hs.job hx hl] at he
  cases he
  refine ⟨exact_read (fun {Z} hZ => ?_), rfl⟩
  simp only [Stmt.eval, hZ.jobHeld (hs.locks_subset hl)]

/-- An update of a held job. -/
theorem exact_putJob {r : st.Result} {hs : Ran P x st o S C r ws} {id : Uuid}
    (hl : .job id ∈ x.locks) {g : JobRec → JobRec} (hfix : ∀ j, (g j).fixed = j.fixed)
    (hws : ws = updateRow ((C.applyAll x.writes).job? id) (fun j => .putJob (g j)))
    (heval : ∀ Z : Db, Z.job? id = (C.applyAll x.writes).job? id → st.eval o Z Z = .ok (r, ws)) :
    hs.Exact := by
  refine ⟨?_, fun {Z} hZ => ⟨o, ws, hs.oracle, heval Z (hZ.jobHeld (hs.locks_subset hl)), rfl⟩⟩
  rw [hws]
  refine allOwned_updateRow fun j hj => ?_
  have hid : (g j).id = id := (JobRec.fixed_eq (hfix j)).1.trans (Db.job?_id hj)
  refine ⟨?_, j, by rw [hid, hj], hfix j⟩
  intro l hmem
  rw [List.mem_singleton.mp hmem, hid, ← hws]
  exact hs.locks_subset hl

theorem setJob {id : Uuid} {state : JobState} {max : Int}
    (hs : Ran P x (.setJob id state max) o S C () ws) (hx : x.Owns) (hl : .job id ∈ x.locks) :
    hs.Exact := by
  have he := hs.eval
  simp only [Stmt.eval, hs.job hx hl, reread_self] at he
  split at he
  · cases he
  split at he
  · cases he
  rename_i hint hpos
  cases he
  refine exact_putJob (g := fun j => { j.setState state (o.clock 0) with maxAttempts := max })
    hl (fun _ => rfl) rfl (fun Z hZ => ?_)
  simp only [Stmt.eval, hZ, reread_self]
  rw [if_neg hint, if_neg hpos]

theorem setJobState {id : Uuid} {state : JobState}
    (hs : Ran P x (.setJobState id state) o S C () ws) (hx : x.Owns) (hl : .job id ∈ x.locks) :
    hs.Exact := by
  have he := hs.eval
  simp only [Stmt.eval, hs.job hx hl, reread_self] at he
  cases he
  refine exact_putJob (g := fun j => j.setState state (o.clock 0)) hl (fun _ => rfl) rfl
    (fun Z hZ => ?_)
  simp only [Stmt.eval, hZ, reread_self]

theorem checkpoint {job : Uuid} {found : Option Artifact}
    (hs : Ran P x (.checkpoint job) o S C found ws) (hx : x.Owns) (hl : .job job ∈ x.locks) :
    hs.Exact ∧ ws = [] := by
  have hsame : (S.applyAll x.writes).newestCheckpoint job
      = (C.applyAll x.writes).newestCheckpoint job := by
    rw [Db.newestCheckpoint, Db.newestCheckpoint, (hs.waitView hx).artifactsHeld hl]
  have he := hs.eval
  simp only [Stmt.eval, hsame] at he
  cases he
  refine ⟨exact_read (fun {Z} hZ => ?_), rfl⟩
  simp only [Stmt.eval, Db.newestCheckpoint, hZ.artifactsHeld (hs.locks_subset hl)]

/-! ## Rows of workers -/

theorem insertWorker {req : Request} (hs : Ran P x (.insertWorker req) o S C () ws)
    (hvalid : req.resources.Valid) : hs.Exact := by
  have he := hs.eval
  simp only [Stmt.eval] at he
  split at he
  · cases he
  split at he
  · cases he
  split at he
  · cases he
  rename_i hnul hint hcheck
  split at he
  · rename_i hrow
    cases he
    refine exact_read (fun {Z} hZ => ?_)
    simp only [Stmt.eval]
    rw [if_neg hnul, if_neg hint, if_neg hcheck, if_pos (hZ.worker hrow)]
  · rename_i hrow
    cases he
    rw [Option.not_isSome_iff_eq_none] at hrow
    have hl : .worker req.workerID ∈ x.locks ++ (Stmt.insertWorker req).takes ()
        [.insertWorker (req.newWorker o)] := by
      simp [Stmt.takes, Write.locks, Request.newWorker]
    refine ⟨⟨⟨?_, hrow, hvalid⟩, trivial⟩, fun {Z} hZ => ⟨o, _, hs.oracle, ?_, rfl⟩⟩
    · intro l hmem
      rw [List.mem_singleton.mp hmem]
      exact hl
    · have hrow' := (hZ.workerHeld hl).trans hrow
      simp only [Stmt.eval]
      rw [if_neg hnul, if_neg hint, if_neg hcheck, if_neg (by rw [hrow']; simp)]

theorem lockWorker {id : String} {row : WorkerRec}
    (hs : Ran P x (.lockWorker id) o S C (some row) ws) :
    hs.Exact ∧ ws = [] ∧ .worker id ∈ x.locks ++ (Stmt.lockWorker id).takes (some row) ws := by
  have he := hs.eval
  simp only [Stmt.eval, Except.ok.injEq, Prod.mk.injEq] at he
  obtain ⟨hrow, rfl⟩ := he
  have hl : .worker id ∈ x.locks ++ (Stmt.lockWorker id).takes (some row) [] := by
    simp [Stmt.takes, Stmt.selects]
  obtain ⟨-, -, hrow⟩ := Option.bind_eq_some_iff.mp hrow
  refine ⟨exact_read (fun {Z} hZ => ?_), rfl, hl⟩
  simp only [Stmt.eval, reread_self, hZ.workerHeld hl, hrow]

/-- An update of a held worker. -/
theorem exact_putWorker {r : st.Result} {hs : Ran P x st o S C r ws} {id : String}
    (hl : .worker id ∈ x.locks) {g : WorkerRec → WorkerRec}
    (hfix : ∀ w, (g w).fixed = w.fixed)
    (hws : ws = updateRow ((C.applyAll x.writes).worker? id) (fun w => .putWorker (g w)))
    (heval : ∀ Z : Db, Z.worker? id = (C.applyAll x.writes).worker? id →
      st.eval o Z Z = .ok (r, ws)) :
    hs.Exact ∧ ∀ w ∈ ws, ∃ row, w = .putWorker row := by
  refine ⟨⟨?_, fun {Z} hZ => ⟨o, ws, hs.oracle, heval Z (hZ.workerHeld (hs.locks_subset hl)),
    rfl⟩⟩, ?_⟩
  · rw [hws]
    refine allOwned_updateRow fun w hw => ?_
    have hid : (g w).id = id := (WorkerRec.fixed_eq (hfix w)).1.trans (Db.worker?_id hw)
    refine ⟨?_, w, by rw [hid, hw], hfix w⟩
    intro l hmem
    rw [List.mem_singleton.mp hmem, hid, ← hws]
    exact hs.locks_subset hl
  · rw [hws, updateRow]
    simp

theorem touchWorker {id : String} (hs : Ran P x (.touchWorker id) o S C () ws) (hx : x.Owns)
    (hl : .worker id ∈ x.locks) : hs.Exact ∧ ∀ w ∈ ws, ∃ row, w = .putWorker row := by
  have he := hs.eval
  simp only [Stmt.eval, hs.worker hx hl, reread_self] at he
  cases he
  refine exact_putWorker (g := fun w => { w with lastHeartbeatAt := o.clock 0 }) hl
    (fun _ => rfl) rfl (fun Z hZ => ?_)
  simp only [Stmt.eval, hZ, reread_self]

theorem drainWorker {id : String} (hs : Ran P x (.drainWorker id) o S C () ws) (hx : x.Owns)
    (hl : .worker id ∈ x.locks) : hs.Exact := by
  have he := hs.eval
  simp only [Stmt.eval, hs.worker hx hl, reread_self] at he
  cases he
  refine (exact_putWorker (g := fun w => { w with state := .draining }) hl
    (fun _ => rfl) rfl (fun Z hZ => ?_)).1
  simp only [Stmt.eval, hZ, reread_self]

/-! ## Rows of attempts -/

/-- A new attempt of a held job on a held worker. -/
theorem insertAttempt {id job token : Uuid} {worker : String} {lease timeout : Int}
    {r : Int × Time × Time} (hs : Ran P x (.insertAttempt id job worker token lease timeout) o S C r ws)
    (hx : x.Owns) (hjob : .job job ∈ x.locks) (hworker : .worker worker ∈ x.locks) : hs.Exact := by
  have hnumber : (S.applyAll x.writes).nextNumber job = (C.applyAll x.writes).nextNumber job := by
    rw [Db.nextNumber, Db.nextNumber, hs.attempts hx hjob]
  have he := hs.eval
  simp only [Stmt.eval, hnumber] at he
  split at he
  · cases he
  split at he
  · cases he
  split at he
  · cases he
  rename_i hint hfree hforeign
  cases he
  simp only [Bool.not_eq_true, Bool.or_eq_false_iff, Option.isNone_eq_false_iff] at hfree hforeign
  have hown : Write.Owned (x.locks ++ (Stmt.insertAttempt id job worker token lease timeout).takes
        ((C.applyAll x.writes).nextNumber job,
          (newAttempt id job ((C.applyAll x.writes).nextNumber job) worker token lease timeout
            o).leaseExpiresAt, o.clock 3)
        [.insertAttempt (newAttempt id job ((C.applyAll x.writes).nextNumber job) worker token lease
          timeout o)]) (C.applyAll x.writes)
      (.insertAttempt (newAttempt id job ((C.applyAll x.writes).nextNumber job) worker token lease
        timeout o)) := by
    refine ⟨fun l hmem => ?_, hfree, hforeign.1, hforeign.2⟩
    simp only [Write.guards, newAttempt, List.mem_cons, List.not_mem_nil, or_false] at hmem
    rcases hmem with rfl | rfl | rfl
    · simp [Stmt.takes, Write.locks, newAttempt]
    · exact hs.locks_subset hjob
    · exact hs.locks_subset hworker
  refine ⟨⟨hown, trivial⟩, fun {Z} hZ => ⟨o, _, hs.oracle, ?_, rfl⟩⟩
  obtain ⟨hfreeZ, hjobZ, hworkerZ⟩ := (hZ.owned hown).fits
  have hnumberZ : Z.nextNumber job = (C.applyAll x.writes).nextNumber job := by
    rw [Db.nextNumber, Db.nextNumber, hZ.attemptsHeld (hs.locks_subset hjob)]
  have hforeignZ : ¬ ((Z.job? job).isNone || (Z.worker? worker).isNone) = true := by
    simpa only [Bool.not_eq_true, Bool.or_eq_false_iff, Option.isNone_eq_false_iff]
      using ⟨hjobZ, hworkerZ⟩
  simp only [Stmt.eval, hnumberZ]
  rw [if_neg hint, if_neg (Bool.not_eq_true _ ▸ hfreeZ), if_neg hforeignZ]

theorem attemptJob {id job : Uuid} (hs : Ran P x (.attemptJob id) o S C (some job) ws) (hx : x.Owns) :
    hs.Exact ∧ ws = [] ∧ ∃ a, (x.after C (.attemptJob id) (some job) ws).view.attempt? id = some a ∧
      a.jobID = job := by
  have he := hs.eval
  simp only [Stmt.eval, Except.ok.injEq, Prod.mk.injEq] at he
  obtain ⟨hrow, rfl⟩ := he
  obtain ⟨a, ha, rfl⟩ := Option.map_eq_some_iff.mp hrow
  obtain ⟨a', ha', hjob⟩ := (hs.waitView hx).attempt ha
  refine ⟨exact_read (fun {Z} hZ => ?_), rfl, a', by rw [Point.view_after]; exact ha', hjob⟩
  obtain ⟨a'', ha'', hjob'⟩ := hZ.attempt ha'
  simp only [Stmt.eval, ha'', Option.map_some, hjob', hjob]

/-- The fence reads an attempt whose job is held. -/
theorem lockAttempt {id : Uuid} {c : AttemptCheck} {a : AttemptRec}
    (hs : Ran P x (.lockAttempt id) o S C (some c) ws) (hx : x.Owns)
    (ha : x.view.attempt? id = some a) (hl : .job a.jobID ∈ x.locks) :
    hs.Exact ∧ ws = [] ∧ c = a.check o := by
  obtain ⟨haS, haC⟩ := hs.attempt hx ha hl
  have he := hs.eval
  simp only [Stmt.eval, haS, haC, reread_self, Option.map_some] at he
  cases he
  refine ⟨exact_read (fun {Z} hZ => ?_), rfl, rfl⟩
  simp only [Stmt.eval, reread_self, hZ.attemptHeld haC (hs.locks_subset hl), Option.map_some]

/-- An update of an active attempt whose job is held. -/
theorem exact_putAttempt {r : st.Result} {hs : Ran P x st o S C r ws} {id : Uuid} {a a' : AttemptRec}
    (ha : (C.applyAll x.writes).attempt? id = some a) (hl : .job a.jobID ∈ x.locks)
    (hact : a.state.active) (hws : ws = [.putAttempt a']) (hfix : a'.fixed = a.fixed)
    (heval : ∀ Z : Db, Z.attempt? id = some a → st.eval o Z Z = .ok (r, ws)) : hs.Exact := by
  obtain ⟨hid, hjob, -⟩ := AttemptRec.fixed_eq hfix
  refine ⟨?_, fun {Z} hZ => ⟨o, ws, hs.oracle, heval Z (hZ.attemptHeld ha (hs.locks_subset hl)), rfl⟩⟩
  rw [hws]
  refine ⟨⟨fun l hmem => ?_, a, ?_, hfix, hact⟩, trivial⟩
  · rw [List.mem_singleton.mp hmem, hjob, ← hws]
    exact hs.locks_subset hl
  · rw [hid, Db.attempt?_id ha, ha]

section Held

variable {id : Uuid} {a : AttemptRec}

theorem renewAttempt {lease : Int} {r : Option (Time × Time)}
    (hs : Ran P x (.renewAttempt id lease) o S C r ws) (hx : x.Owns)
    (ha : x.view.attempt? id = some a) (hl : .job a.jobID ∈ x.locks) (hact : a.state.active) :
    hs.Exact := by
  obtain ⟨haS, haC⟩ := hs.attempt hx ha hl
  have he := hs.eval
  simp only [Stmt.eval, haS, haC, reread_self, Option.map_some, updateRow_some] at he
  cases he
  exact exact_putAttempt haC hl hact rfl rfl (fun Z hZ => by simp [Stmt.eval, hZ])

theorem startAttempt (hs : Ran P x (.startAttempt id) o S C () ws) (hx : x.Owns)
    (ha : x.view.attempt? id = some a) (hl : .job a.jobID ∈ x.locks) (hact : a.state.active) :
    hs.Exact := by
  obtain ⟨haS, haC⟩ := hs.attempt hx ha hl
  have he := hs.eval
  simp only [Stmt.eval, haS, haC, reread_self, updateRow_some] at he
  cases he
  exact exact_putAttempt haC hl hact rfl rfl (fun Z hZ => by simp [Stmt.eval, hZ])

theorem finishAttempt {state : AttemptState} {code : Int} {reason : String}
    (hs : Ran P x (.finishAttempt id state code reason) o S C () ws) (hx : x.Owns)
    (ha : x.view.attempt? id = some a) (hl : .job a.jobID ∈ x.locks) (hact : a.state.active) :
    hs.Exact := by
  obtain ⟨haS, haC⟩ := hs.attempt hx ha hl
  have he := hs.eval
  simp only [Stmt.eval, haS, haC, reread_self, updateRow_some] at he
  split at he
  · cases he
  split at he
  · cases he
  rename_i hint hnul
  cases he
  refine exact_putAttempt haC hl hact rfl rfl (fun Z hZ => ?_)
  simp only [Stmt.eval, hZ, reread_self, updateRow_some]
  rw [if_neg hint, if_neg hnul]

theorem expireAttempt (hs : Ran P x (.expireAttempt id) o S C () ws) (hx : x.Owns)
    (ha : x.view.attempt? id = some a) (hl : .job a.jobID ∈ x.locks) (hact : a.state.active) :
    hs.Exact := by
  obtain ⟨haS, haC⟩ := hs.attempt hx ha hl
  have he := hs.eval
  simp only [Stmt.eval, haS, haC, reread_self, updateRow_some] at he
  cases he
  exact exact_putAttempt haC hl hact rfl rfl (fun Z hZ => by simp [Stmt.eval, hZ])

end Held

end Ran

/-- The attempts `cancel` updates are the same while their job is held. -/
theorem Rely.cancellable {L : List Lock} {X Y Z : Db} {job : Uuid} (hY : Y.Tidy)
    (h : X.attemptsOf job = Y.attemptsOf job) (h' : Rely L Y Z) (hl : .job job ∈ L) :
    X.cancellable Y job = Y.cancellable Y job ∧ Z.cancellable Z job = Y.cancellable Y job := by
  have hrows : ∀ d : Db, d.attempts.filter (fun a => a.jobID = job && a.state.active)
      = (d.attemptsOf job).filter (fun a => a.state.active) := by
    intro d
    rw [Db.attemptsOf, List.filter_filter]
    exact List.filter_congr (fun a _ => Bool.and_comm _ _)
  constructor
  · rw [Db.cancellable, Db.cancellable, hrows, hrows, h]
  · rw [Db.cancellable, Db.cancellable, hrows, hrows, h'.attemptsHeld hl]
    congr 1
    refine List.filterMap_congr (fun a ha => ?_)
    obtain ⟨ha, hjob⟩ := Db.mem_attemptsOf.mp (List.mem_of_mem_filter ha)
    have hfind : Y.attempt? a.id = some a := Db.WF.attempt_of_mem hY ha
    rw [h'.attemptHeld hfind (hjob ▸ hl), hfind]

namespace Ran

variable {P : Oracle → Prop} {x : Point} {o : Oracle} {S C : Db} {ws : List Write}

theorem cancelAttempts {job : Uuid} (hs : Ran P x (.cancelAttempts job) o S C () ws) (hx : x.Owns)
    (hl : .job job ∈ x.locks) : hs.Exact := by
  have htidy := hs.tidy hx
  have he := hs.eval
  simp only [Stmt.eval, (Rely.cancellable htidy (hs.attempts hx hl) (.refl x.locks _) hl).1] at he
  cases he
  refine ⟨?_, fun {Z} hZ => ⟨o, _, hs.oracle, ?_, rfl⟩⟩
  · rcases Db.WF.cancellable htidy job with ⟨hnil, -⟩ | ⟨a, hone, ha, hjob, hact⟩
    · have hnil' : (C.applyAll x.writes).cancellable (C.applyAll x.writes) job = [] := hnil
      rw [hnil']
      trivial
    · have hone' : (C.applyAll x.writes).cancellable (C.applyAll x.writes) job = [a] := hone
      rw [hone']
      refine ⟨⟨fun l hmem => ?_, a, ha, rfl, hact⟩, trivial⟩
      rw [List.mem_singleton.mp hmem]
      exact List.mem_append_left _ (hjob ▸ hl)
  · simp only [Stmt.eval,
      (Rely.cancellable htidy (hs.attempts hx hl) hZ (hs.locks_subset hl)).2]

/-- The expired attempt of a held job. -/
theorem expiredAttempt {job : Uuid} {found : Option (Uuid × Int × Int)}
    (hs : Ran P x (.expiredAttempt job) o S C found ws) (hx : x.Owns) (hl : .job job ∈ x.locks) :
    hs.Exact ∧ ws = [] := by
  have hrows : ∀ d : Db, d.attempts.find? (fun a => a.jobID = job && a.expiredAt (o.clock 0))
      = (d.attemptsOf job).find? (fun a => a.expiredAt (o.clock 0)) := by
    intro d
    simp [Db.attemptsOf, List.find?_filter]
  have he := hs.eval
  simp only [Stmt.eval, hrows, hs.attempts hx hl, hs.job hx hl] at he
  cases he
  refine ⟨exact_read (fun {Z} hZ => ?_), rfl⟩
  have hl' := hs.locks_subset hl
  simp only [Stmt.eval, hrows, hZ.attemptsHeld hl', hZ.jobHeld hl']

/-! ## Artifacts -/

theorem artifactByKey {key : String} {a : Artifact}
    (hs : Ran P x (.artifactByKey key) o S C (some a) ws) (hx : x.Owns) : hs.Exact ∧ ws = [] := by
  have he := hs.eval
  simp only [Stmt.eval, Except.ok.injEq, Prod.mk.injEq] at he
  obtain ⟨hrow, rfl⟩ := he
  obtain ⟨row, hrow, ha⟩ := Option.map_eq_some_iff.mp hrow
  refine ⟨exact_read (fun {Z} hZ => ?_), rfl⟩
  simp only [Stmt.eval, hZ.artifact ((hs.waitView hx).artifact hrow), Option.map_some, ha]

/-- A new artifact of a held job, under a key that was free. -/
theorem insertArtifact {id job att : Uuid} {a : Artifact}
    (hs : Ran P x (.insertArtifact id job att a) o S C () ws) (hl : .job job ∈ x.locks) :
    hs.Exact ∧ (∃ row, ws = [.insertArtifact row]) ∧
      (C.applyAll x.writes).artifactByKey? a.objectKey = none ∧
      .object a.objectKey ∈ x.locks ++ (Stmt.insertArtifact id job att a).takes () ws := by
  have he := hs.eval
  simp only [Stmt.eval] at he
  split at he
  · cases he
  rename_i hnul
  split at he
  · cases he
  rename_i kind hkind
  split at he
  · cases he
  rename_i hsize
  split at he
  · cases he
  rename_i hfree
  split at he
  · cases he
  rename_i hforeign
  cases he
  have hfree' := hfree
  have hforeign' := hforeign
  simp only [Bool.not_eq_true, Bool.or_eq_false_iff, Option.isSome_eq_false_iff,
    Option.isNone_iff_eq_none, Option.isNone_eq_false_iff] at hfree hforeign
  have hlocks : .artifact id ∈ x.locks ++ (Stmt.insertArtifact id job att a).takes ()
        [.insertArtifact (a.newRow id job att kind o)] ∧
      .object a.objectKey ∈ x.locks ++ (Stmt.insertArtifact id job att a).takes ()
        [.insertArtifact (a.newRow id job att kind o)] := by
    simp [Stmt.takes, Write.locks, Artifact.newRow]
  refine ⟨⟨⟨⟨fun l hmem => ?_, hfree⟩, trivial⟩, fun {Z} hZ => ⟨o, _, hs.oracle, ?_, rfl⟩⟩,
    ⟨_, rfl⟩, hfree.2, hlocks.2⟩
  · simp only [Write.guards, Artifact.newRow, List.mem_cons, List.not_mem_nil, or_false] at hmem
    rcases hmem with rfl | rfl | rfl
    · exact hlocks.1
    · exact hlocks.2
    · exact hs.locks_subset hl
  · obtain ⟨row, hrow⟩ := Option.isSome_iff_exists.mp hforeign.2
    obtain ⟨row', hrow', -⟩ := hZ.attempt hrow
    have hfreeZ : ¬ ((Z.artifact? id).isSome || (Z.artifactByKey? a.objectKey).isSome) = true := by
      simp [hZ.artifactFree hlocks.1 hfree.1, hZ.objectFree hlocks.2 hfree.2]
    have hforeignZ : ¬ ((Z.job? job).isNone || (Z.attempt? att).isNone) = true := by
      simpa [hrow'] using Option.isSome_iff_ne_none.mp (hZ.job hforeign.1)
    simp only [Stmt.eval, hkind]
    rw [if_neg hnul, if_neg hsize, if_neg hfreeZ, if_neg hforeignZ]

end Ran

end Rungrid
