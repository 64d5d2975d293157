-- SUMMARY: Which client data PostgreSQL rejects: the NUL characters and exit codes the Go checks let through.
import Rungrid.Base.Utf8
import Rungrid.Lifecycle.Checkpoints
import Rungrid.Lifecycle.Submission

/-!
# Admission of client data

`Stmt.DataOk` says what the columns a statement writes require of its parameters. A
statement is rejected for its data exactly if it does not hold. For a submission and
for a report it comes down to texts without U+0000 and an exit code in the range of
the column; nothing else that passes the checks of the Go code is rejected.
-/

namespace Rungrid

open Prog

/-! ## Statements -/

/-- PostgreSQL rejects the data of a statement. -/
def Err.data : Err → Bool
  | .db .invalidText | .db .outOfRange | .db .check => true
  | _ => false

/-- The parameters fit the columns. The number of a new attempt is computed by its
statement, so nothing is said of it here. -/
def Stmt.DataOk : Stmt → Prop
  | .lockKey key => Text.hasNul key = false
  | .insertJob _ j => j.hasNul = false ∧
      (Int4 j.resources.cpu ∧ Int4 j.resources.memoryMB ∧ Int4 j.resources.gpu ∧
        Int4 j.maxAttempts ∧ Int4 j.timeoutSeconds) ∧
      0 ≤ j.resources.cpu ∧ 0 ≤ j.resources.memoryMB ∧ 0 ≤ j.resources.gpu ∧
        0 < j.maxAttempts ∧ 0 < j.timeoutSeconds
  | .insertEvent _ _ _ payload => payload.hasNul = false
  | .insertRequest scope id _ => Text.hasNul scope = false ∧ Text.hasNul id = false
  | .setJob _ _ maxAttempts => Int4 maxAttempts ∧ 0 < maxAttempts
  | .insertWorker r =>
      (Text.hasNul r.workerID = false ∧ Text.hasNul r.sessionID = false ∧
        Text.hasNul r.hostname = false) ∧
      (Int4 r.resources.cpu ∧ Int4 r.resources.memoryMB ∧ Int4 r.resources.gpu) ∧
      0 ≤ r.resources.cpu ∧ 0 ≤ r.resources.memoryMB ∧ 0 ≤ r.resources.gpu
  | .insertAttempt .. => False
  | .insertArtifact _ _ _ a =>
      (Text.hasNul a.objectKey = false ∧ Text.hasNul a.contentType = false ∧
        Text.hasNul a.checksum = false) ∧ (ArtifactKind.parse a.kind).isSome ∧ 0 ≤ a.sizeBytes
  | .finishAttempt _ _ exitCode reason => Int4 exitCode ∧ Text.hasNul reason = false
  | _ => True

section Statements

variable {o : Oracle} {snap cur : Db} {st : Stmt}

/-- A statement whose data fit is not rejected for them. -/
theorem Stmt.DataOk.error (h : st.DataOk) {e : Err} (he : st.eval o snap cur = .error e) :
    e.data = false := by
  cases st with
  | lockKey key => simp [Stmt.eval, show Text.hasNul key = false from h] at he
  | insertJob id j =>
      obtain ⟨hnul, hint, hcheck⟩ := h
      simp only [Stmt.eval, Job.newRow, hnul, hint, hcheck, not_true_eq_false, and_self, ↓reduceIte,
        Bool.false_eq_true] at he
      split at he
      · cases he
      split at he
      · cases he
        rfl
      · cases he
  | insertEvent job attempt kind payload =>
      simp only [Stmt.eval, show payload.hasNul = false from h, Bool.false_eq_true, ↓reduceIte] at he
      split at he
      · cases he
        rfl
      split at he
      · cases he
        rfl
      · cases he
  | insertRequest scope id hash =>
      obtain ⟨hscope, hid⟩ := h
      simp only [Stmt.eval, hscope, hid, Bool.or_self, Bool.false_eq_true, ↓reduceIte] at he
      split at he <;> cases he
  | setJob id state max =>
      obtain ⟨hint, hpos⟩ := h
      simp [Stmt.eval, hint, hpos] at he
  | insertWorker r =>
      obtain ⟨⟨hw, hs, hh⟩, hint, hpos⟩ := h
      simp only [Stmt.eval, hw, hs, hh, hint, hpos, Bool.or_self, Bool.false_eq_true, and_self,
        not_true_eq_false, ↓reduceIte] at he
      split at he <;> cases he
  | insertAttempt => cases h
  | insertArtifact id job attempt a =>
      obtain ⟨⟨hk, hc, hs⟩, hkind, hsize⟩ := h
      obtain ⟨kind, hkind⟩ := Option.isSome_iff_exists.mp hkind
      simp only [Stmt.eval, hk, hc, hs, hkind, Bool.or_self, Bool.false_eq_true, ↓reduceIte,
        Int.not_lt.mpr hsize] at he
      split at he
      · cases he
        rfl
      split at he
      · cases he
        rfl
      · cases he
  | finishAttempt id state exitCode reason =>
      obtain ⟨hint, hreason⟩ := h
      simp [Stmt.eval, hint, hreason] at he
  | _ => cases he

/-- A report's statements that succeed had data that fit. -/
theorem Stmt.insertEvent_ok {job : Uuid} {attempt : Option Uuid} {kind : EventType}
    {payload : EventPayload} {r : Unit} {ws : List Write}
    (he : (Stmt.insertEvent job attempt kind payload).eval o snap cur = .ok (r, ws)) :
    payload.hasNul = false := by
  simp only [Stmt.eval] at he
  split at he
  · cases he
  · rename_i h
    simpa using h

theorem Stmt.finishAttempt_ok {id : Uuid} {state : AttemptState} {exitCode : Int} {reason : String}
    {r : Unit} {ws : List Write}
    (he : (Stmt.finishAttempt id state exitCode reason).eval o snap cur = .ok (r, ws)) :
    Int4 exitCode := by
  simp only [Stmt.eval] at he
  split at he
  · cases he
  · rename_i h
    exact not_not.mp h

theorem Stmt.insertJob_ok {id : Uuid} {j : Job} {r : Bool} {ws : List Write}
    (he : (Stmt.insertJob id j).eval o snap cur = .ok (r, ws)) : j.hasNul = false := by
  simp only [Stmt.eval] at he
  split at he
  · cases he
  · rename_i h
    simpa using h

/-- The rows of artifacts that statements write hold no NUL. -/
theorem Stmt.insertArtifact_ok {id job attempt : Uuid} {a : Artifact} {r : Unit} {ws : List Write}
    (he : (Stmt.insertArtifact id job attempt a).eval o snap cur = .ok (r, ws)) :
    Text.hasNul a.objectKey = false ∧ Text.hasNul a.contentType = false := by
  simp only [Stmt.eval] at he
  split at he
  · cases he
  · rename_i h
    simp only [Bool.or_eq_true, not_or, Bool.not_eq_true] at h
    exact h.1

/-- The texts of a stored artifact. -/
def ArtifactRec.TextOk (x : ArtifactRec) : Prop :=
  Text.hasNul x.objectKey = false ∧ Text.hasNul x.contentType = false

theorem Stmt.artifact_written {r : st.Result} {ws : List Write}
    (he : st.eval o snap cur = .ok (r, ws)) {x : ArtifactRec} (hx : .insertArtifact x ∈ ws) :
    x.TextOk := by
  cases st with
  | insertArtifact id job attempt a =>
      have htext := Stmt.insertArtifact_ok he
      simp only [Stmt.eval] at he
      (repeat' split at he) <;> cases he
      obtain rfl : x = _ := by simpa using hx
      exact htext
  | _ =>
      simp only [Stmt.eval] at he
      (repeat' split at he) <;> cases he <;> simp [updateRow] at hx

theorem Db.mem_artifacts_applyAll {db : Db} {ws : List Write} {x : ArtifactRec}
    (h : x ∈ (db.applyAll ws).artifacts) : x ∈ db.artifacts ∨ .insertArtifact x ∈ ws := by
  induction ws generalizing db with
  | nil => exact .inl h
  | cons w ws ih =>
      rcases ih h with h | h
      · cases w with
        | insertArtifact y =>
            rcases List.mem_append.mp h with h | h
            · exact .inl h
            · rw [List.mem_singleton.mp h]
              exact .inr List.mem_cons_self
        | _ => exact .inl h
      · exact .inr (List.mem_cons_of_mem w h)

end Statements

section Stored

variable {db : Db}

theorem Reachable.artifacts_textOk [Sha256] (h : Reachable db) : ∀ x ∈ db.artifacts, x.TextOk := by
  obtain ⟨cs, rfl⟩ := h
  have hempty : ∀ x ∈ Db.empty.artifacts, x.TextOk := by simp [Db.empty]
  refine Machine.exec_inv (I := fun db => ∀ x ∈ db.artifacts, x.TextOk) perform_transactional cs ?_
    hempty
  intro c _ db res db' hdb hc
  refine (runs_of_run (P := fun _ => True) (fun _ => trivial) (perform_ok.mp hc)).inv
    (I := fun db => ∀ x ∈ db.artifacts, x.TextOk) ?_ hdb
  intro st o d r ws hd heval x hx
  rcases Db.mem_artifacts_applyAll hx with hx | hx
  · exact hd x hx
  · exact Stmt.artifact_written heval hx

end Stored

/-! ## Reports -/

/-- The texts of a report and, where it is stored, its exit code. -/
def Request.clean (m : Method) (r : Request) : Bool :=
  !r.report.hasNul &&
    r.artifacts.elems.all (fun x => !Text.hasNul x.objectKey && !Text.hasNul x.contentType) &&
    (m ≠ .failAttempt || Int4 r.exitCode)

section Clean

variable {m : Method} {r : Request}

theorem Request.clean_iff : r.clean m = true ↔ r.report.hasNul = false ∧
    (∀ x ∈ r.artifacts.elems, Text.hasNul x.objectKey = false ∧ Text.hasNul x.contentType = false) ∧
    (m = .failAttempt → Int4 r.exitCode) := by
  simp only [clean, Bool.and_eq_true, Bool.not_eq_true', List.all_eq_true, Bool.or_eq_true,
    decide_eq_true_eq, and_assoc]
  constructor
  · rintro ⟨h, ha, he⟩
    exact ⟨h, ha, fun hm => he.resolve_left (by simp [hm])⟩
  · rintro ⟨h, ha, he⟩
    refine ⟨h, ha, ?_⟩
    by_cases hm : m = .failAttempt
    · exact .inr (he hm)
    · exact .inl hm

theorem Request.report_hasNul (h : r.report.hasNul = false) : Text.hasNul r.requestID = false ∧
    Text.hasNul r.workerID = false ∧ Text.hasNul r.reason = false := by
  simp only [Request.report, EventPayload.hasNul, Bool.or_eq_false_iff] at h
  exact ⟨h.1.1.1, h.1.1.2, h.2⟩

/-- The scope of a report's receipt holds the text of the worker id. -/
theorem Store.rpcScope_hasNul (hm : m.reports = true) :
    Text.hasNul (Store.rpcScope m r) = Text.hasNul r.workerID := by
  have htext : Text.hasNul ("rpc:" ++ m.text ++ ":") = false := by
    cases m <;> first | decide | cases hm
  rw [Store.rpcScope, Text.hasNul_append, htext, Bool.false_or]

theorem Store.checksumPattern_hasNul {s : String} (h : Store.checksumPattern s = true) :
    Text.hasNul s = false := by
  simp only [Store.checksumPattern, Bool.and_eq_true, List.all_eq_true] at h
  rw [Text.hasNul, List.contains_eq_mem, decide_eq_false_iff_not]
  intro hmem
  exact absurd (h.2 Text.nul hmem) (by decide)

end Clean

/-- Every statement of the program has data that fit, and no branch of it reports
that data were rejected. -/
abbrev Prog.Fitting {α : Type} (p : Prog α) : Prop := p.All Stmt.DataOk (fun e => e.data = false)

theorem Prog.Fitting.safe {α : Type} {p : Prog α} (h : p.Fitting) (db : Db) :
    p.Safe Stmt.DataOk (fun e => e.data = false) db :=
  All.safe h (fun _ hs _ _ _ he => hs.error he) db

section Fitting

variable {α : Type} {m : Method} {r : Request} {s : Store}

theorem fitting_sql {st : Stmt} {f : st.Result → Prog α} (hst : st.DataOk)
    (hf : ∀ x, (f x).Fitting) : (sql st >>= f).Fitting :=
  ⟨hst, hf⟩

theorem Store.artifactOk_dataOk {scope : String} {x : Artifact} {id job attempt : Uuid}
    (h : Store.artifactOk scope x = true) (hkey : Text.hasNul x.objectKey = false)
    (htype : Text.hasNul x.contentType = false) :
    (Stmt.insertArtifact id job attempt x).DataOk := by
  simp only [Store.artifactOk, Bool.and_eq_true, decide_eq_true_eq] at h
  exact ⟨⟨hkey, htype, Store.checksumPattern_hasNul h.1.1.2⟩, h.2, h.1.2⟩

theorem recordArtifacts_fitting {scope : String} {job attempt : Uuid} {xs : List Artifact}
    (h : ∀ x ∈ xs, Text.hasNul x.objectKey = false ∧ Text.hasNul x.contentType = false) :
    (Store.recordArtifacts scope job attempt xs).Fitting := by
  induction xs with
  | nil => trivial
  | cons x xs ih =>
      have ih := ih (fun y hy => h y (List.mem_cons_of_mem x hy))
      obtain ⟨hkey, htype⟩ := h x List.mem_cons_self
      unfold Store.recordArtifacts
      split
      · rfl
      · rename_i hok
        refine fitting_sql trivial (fun existing => ?_)
        split
        · split
          · rfl
          · exact ih
        · refine fitting_sql trivial (fun id => fitting_sql ?_ (fun _ => ih))
          exact Store.artifactOk_dataOk (by simpa using hok) hkey htype

theorem accept_fitting {job attempt : Uuid} (h : r.report.hasNul = false) :
    (Store.accept m r job attempt).Fitting :=
  fitting_sql h (fun _ => trivial)

theorem finish_fitting {job attempt : Uuid} {state : AttemptState} {next : JobState}
    (h : r.report.hasNul = false) (hexit : Int4 r.exitCode) :
    (Store.finish m r job attempt state next).Fitting :=
  fitting_sql ⟨hexit, (Request.report_hasNul h).2.2⟩
    (fun _ => fitting_sql trivial (fun _ => accept_fitting h))

theorem attemptBody_fitting {j : JobRow} {attempt : Uuid} {c : AttemptCheck}
    (hm : m.reports = true) (h : r.clean m = true) : (s.attemptBody m r j attempt c).Fitting := by
  obtain ⟨hreport, hartifacts, hexit⟩ := Request.clean_iff.mp h
  have hbody : ∀ {k : Unit → Prog Response}, (k ()).Fitting →
      (if c.state ≠ .running then .fail (.conflict none)
        else if !Store.reportOk r then .fail (.invalid none)
        else Store.recordArtifacts (Store.keyScope j.definition j.id r.attemptID) j.id attempt
          r.artifacts.elems >>= k : Prog Response).Fitting := by
    intro k hk
    split
    · rfl
    split
    · rfl
    · exact All.bind (recordArtifacts_fitting hartifacts) (fun _ => hk)
  cases m with
  | reportProgress => exact hbody (accept_fitting hreport)
  | completeAttempt =>
      refine hbody ?_
      dsimp only
      split
      · rfl
      · rename_i hzero
        rw [ne_eq, not_not] at hzero
        exact finish_fitting hreport (by rw [hzero]; decide)
  | failAttempt => exact hbody (finish_fitting hreport (hexit rfl))
  | _ => cases hm

theorem attempt_fitting (hm : m.reports = true) (h : r.clean m = true) : (s.attempt m r).Fitting := by
  unfold Store.attempt
  split
  · refine fitting_sql trivial (fun owner => ?_)
    split
    · rfl
    refine fitting_sql trivial (fun row => ?_)
    split
    · rfl
    refine fitting_sql trivial (fun checked => ?_)
    split
    · rfl
    split
    · rfl
    · exact attemptBody_fitting hm h
  · rfl

theorem rpcBody_fitting (hm : m.reports = true) (h : r.clean m = true) : (s.rpcBody m r).Fitting := by
  have hbody : (s.workerBody m r).Fitting := by
    refine fitting_sql trivial (fun row => ?_)
    split
    · rfl
    split
    · rfl
    refine fitting_sql trivial (fun _ => ?_)
    cases m <;> first | exact attempt_fitting hm h | cases hm
  cases m <;> first | exact hbody | cases hm

/-- No statement of a clean report is rejected for its data. -/
theorem rpc_fitting [Sha256] (hm : m.reports = true) (h : r.clean m = true) : (s.rpc m r).Fitting := by
  obtain ⟨hreport, -, -⟩ := Request.clean_iff.mp h
  obtain ⟨hid, hworker, -⟩ := Request.report_hasNul hreport
  unfold Store.rpc
  split
  · rfl
  unfold Store.mutate
  split
  · rfl
  refine fitting_sql ⟨(Store.rpcScope_hasNul hm).trans hworker, hid⟩ (fun _ => ?_)
  refine fitting_sql trivial (fun row => ?_)
  split
  · rfl
  split
  · rfl
  split
  · trivial
  · exact All.bind (rpcBody_fitting hm h) (fun _ => fitting_sql trivial (fun _ => trivial))

end Fitting

/-! ### Clean batches -/

section Batches

theorem Job.Valid.dataOk {j : Job} (h : j.Valid) (hnul : j.hasNul = false) (id : Uuid) :
    (Stmt.insertJob id j).DataOk := by
  obtain ⟨⟨hc, hm, hg, hc', hm', hg'⟩, -, -⟩ := h.resources
  obtain ⟨ha, ha', ht, ht'⟩ := h.bounds
  refine ⟨hnul, ?_, ?_⟩
  · simp only [Int4]
    omega
  · omega

theorem submitLoop_fitting {js : List Job} (h : ∀ j ∈ js, j.Valid ∧ j.hasNul = false)
    (out : List JobRow) : (Store.submitLoop js out).Fitting := by
  induction js generalizing out with
  | nil => trivial
  | cons j js ih =>
      have ih := ih (fun k hk => h k (List.mem_cons_of_mem j hk))
      obtain ⟨hvalid, hnul⟩ := h j List.mem_cons_self
      refine fitting_sql trivial (fun id => fitting_sql (hvalid.dataOk hnul id) (fun inserted => ?_))
      refine fitting_sql trivial (fun found => ?_)
      split
      · rfl
      split
      · rfl
      split
      · exact fitting_sql rfl (fun _ => ih _)
      · exact ih _

theorem lockKeys_fitting {keys : List String} (h : ∀ key ∈ keys, Text.hasNul key = false) :
    (Store.lockKeys keys).Fitting := by
  induction keys with
  | nil => trivial
  | cons key keys ih =>
      exact fitting_sql (h key List.mem_cons_self)
        (fun _ => ih (fun k hk => h k (List.mem_cons_of_mem key hk)))

/-- No statement of a batch without NUL is rejected for its data. -/
theorem submit_fitting {jobs : List Job} (h : ∀ j ∈ jobs, j.hasNul = false) :
    (Store.submit jobs).Fitting := by
  unfold Store.submit
  split
  · rfl
  split
  · rfl
  · rename_i hvalid
    refine All.bind (lockKeys_fitting (fun key hkey => ?_)) (fun _ => submitLoop_fitting (fun j hj =>
      ⟨List.findSome?_eq_none_iff.mp hvalid j hj, h j hj⟩) [])
    obtain ⟨j, hj, rfl⟩ := List.mem_map.mp ((List.perm_insertionSort _ _).mem_iff.mp hkey)
    exact (Job.hasNul_eq_false.mp (h j hj)).2.2.2.1

end Batches

/-! ## Data that are rejected -/

/-- The errors of a transaction whose checks pass: rejected data, and a generated id
that is in use. -/
def Err.rejects (e : Err) : Prop := e.data = true ∨ e = .db .unique

section Rejects

variable {α : Type} {P : Oracle → Prop} {db : Db}

/-- The two parts of a step, for a statement that fails and for one that does not. -/
theorem step_error {R : Type} {E : Err → Prop} {e : Err} {Q : R → List Write → Prop} (h : E e) :
    (∀ e', (.error e : Except Err (R × List Write)) = .error e' → E e') ∧
      ∀ r ws, (.error e : Except Err (R × List Write)) = .ok (r, ws) → Q r ws :=
  ⟨fun _ he => Except.error.inj he ▸ h, fun _ _ he => (nomatch he)⟩

theorem step_ok {R : Type} {E : Err → Prop} {r : R} {ws : List Write} {Q : R → List Write → Prop}
    (h : Q r ws) : (∀ e', (.ok (r, ws) : Except Err (R × List Write)) = .error e' → E e') ∧
      ∀ r' ws', (.ok (r, ws) : Except Err (R × List Write)) = .ok (r', ws') → Q r' ws' := by
  refine ⟨fun _ he => (nomatch he), fun r' ws' he => ?_⟩
  cases he
  exact h

/-- A statement that cannot fail. -/
theorem failsOnly_total {st : Stmt} {f : st.Result → Prog α} {E : Err → Prop}
    {r : Oracle → st.Result} {ws : Oracle → List Write}
    (heval : ∀ o, st.eval o db db = .ok (r o, ws o))
    (hf : ∀ o, P o → (f (r o)).FailsOnly P E (db.applyAll (ws o))) :
    (sql st >>= f).FailsOnly P E db := by
  intro o ho
  rw [heval o]
  exact step_ok (hf o ho)

theorem failsOnly_insertEvent {job : Uuid} {attempt : Option Uuid} {kind : EventType}
    {payload : EventPayload} {f : Unit → Prog α} (hjob : (db.job? job).isSome)
    (hattempt : ∀ a, attempt = some a → (db.attempt? a).isSome)
    (hf : ∀ o, (f ()).FailsOnly P Err.rejects
      (db.apply (.insertEvent (db.newEvent o job attempt kind payload)))) :
    (sql (.insertEvent job attempt kind payload) >>= f).FailsOnly P Err.rejects db := by
  intro o ho
  have hno : attempt.any (fun a => (db.attempt? a).isNone) = false := by
    cases attempt with
    | none => rfl
    | some a => simpa using hattempt a rfl
  simp only [Stmt.eval, hno, Option.isNone_iff_eq_none, Option.isSome_iff_ne_none.mp hjob,
    ↓reduceIte, Bool.false_eq_true]
  split
  · exact step_error (.inl rfl)
  · exact step_ok (hf o)

theorem failsOnly_insertArtifact {id job attempt : Uuid} {x : Artifact} {f : Unit → Prog α}
    (hjob : (db.job? job).isSome) (hattempt : (db.attempt? attempt).isSome)
    (hf : ∀ kind o, ArtifactKind.parse x.kind = some kind → (f ()).FailsOnly P Err.rejects
      (db.apply (.insertArtifact (x.newRow id job attempt kind o)))) :
    (sql (.insertArtifact id job attempt x) >>= f).FailsOnly P Err.rejects db := by
  have href : ((db.job? job).isNone || (db.attempt? attempt).isNone) = false := by
    simp [Option.isNone_eq_false_iff, hjob, hattempt]
  intro o ho
  simp only [Stmt.eval, href, Bool.false_eq_true, ↓reduceIte]
  split
  · exact step_error (.inl rfl)
  split
  · exact step_error (.inl rfl)
  · rename_i kind hkind
    split
    · exact step_error (.inl rfl)
    split
    · exact step_error (.inr rfl)
    · exact step_ok (hf kind o hkind)

/-! ### Reports -/

/-- The request passes the checks of `attempt` in `db`, with all readings of the clock
that satisfy `P`. -/
structure Passes (P : Oracle → Prop) (db : Db) (m : Method) (r : Request) (a : AttemptRec)
    (j : JobRec) : Prop where
  named : Uuid.parse r.attemptID = some a.id
  attempt : db.attempt? a.id = some a
  job : db.job? a.jobID = some j
  fence : ∀ o, P o → Store.fence r j.row (a.check o) = true
  running : a.state = .running
  report : Store.reportOk r = true
  artifacts : ∀ x ∈ r.artifacts.elems,
    Store.artifactOk (Store.keyScope j.definition j.id r.attemptID) x = true
  stored : ∀ x ∈ r.artifacts.elems, ∀ row ∈ db.artifacts, row.objectKey = x.objectKey →
    row.artifact = x
  distinct : ∀ x ∈ r.artifacts.elems, ∀ y ∈ r.artifacts.elems, x.objectKey = y.objectKey → x = y
  exit : m = .completeAttempt → r.exitCode = 0

variable {m : Method} {r : Request} {a : AttemptRec} {j : JobRec} {s : Store}

theorem recordArtifacts_rejects {scope : String} {job attempt : Uuid} {xs : List Artifact}
    (hok : ∀ x ∈ xs, Store.artifactOk scope x = true)
    (hstored : ∀ x ∈ xs, ∀ row ∈ db.artifacts, row.objectKey = x.objectKey → row.artifact = x)
    (hdistinct : ∀ x ∈ xs, ∀ y ∈ xs, x.objectKey = y.objectKey → x = y)
    (hjob : (db.job? job).isSome) (hattempt : (db.attempt? attempt).isSome) :
    (Store.recordArtifacts scope job attempt xs).FailsOnly P Err.rejects db := by
  induction xs generalizing db with
  | nil => trivial
  | cons x xs ih =>
      have hok' := fun y hy => hok y (List.mem_cons_of_mem x hy)
      have hdistinct' := fun y hy z hz =>
        hdistinct y (List.mem_cons_of_mem x hy) z (List.mem_cons_of_mem x hz)
      unfold Store.recordArtifacts
      rw [if_neg (by simp [hok x List.mem_cons_self])]
      refine failsOnly_total (fun _ => rfl) (fun _ _ => ?_)
      cases hrow : db.artifactByKey? x.objectKey with
      | some row =>
          have hsame : row.artifact = x := hstored x List.mem_cons_self row (Table.mem_of_find hrow)
            (Table.key_of_find hrow)
          simp only [Option.map_some, hsame, ne_eq, not_true_eq_false, ↓reduceIte]
          exact ih hok' (fun y hy => hstored y (List.mem_cons_of_mem x hy)) hdistinct' hjob hattempt
      | none =>
          simp only [Option.map_none]
          refine failsOnly_total (fun _ => rfl) (fun oid _ => ?_)
          refine failsOnly_insertArtifact hjob hattempt (fun kind o hkind => ?_)
          refine ih hok' (fun y hy row hrow hkey => ?_) hdistinct' hjob hattempt
          rcases List.mem_append.mp hrow with hold | hnew
          · exact hstored y (List.mem_cons_of_mem x hy) row hold hkey
          · obtain rfl := List.mem_singleton.mp hnew
            rw [Artifact.newRow_artifact hkind]
            exact hdistinct x List.mem_cons_self y (List.mem_cons_of_mem x hy) hkey

theorem accept_rejects {job attempt : Uuid} (hjob : (db.job? job).isSome)
    (hattempt : (db.attempt? attempt).isSome) :
    (Store.accept m r job attempt).FailsOnly P Err.rejects db :=
  failsOnly_insertEvent hjob (fun _ h => Option.some.inj h ▸ hattempt) (fun _ => trivial)

theorem finish_rejects {state : AttemptState} {next : JobState} (ha : db.attempt? a.id = some a)
    (hj : db.job? j.id = some j) :
    (Store.finish m r j.id a.id state next).FailsOnly P Err.rejects db := by
  intro o ho
  simp only [Stmt.eval, reread_self, ha, updateRow_some]
  split
  · exact step_error (.inl rfl)
  split
  · exact step_error (.inl rfl)
  refine step_ok (failsOnly_total (fun _ => rfl) (fun oj _ => ?_))
  have hj' : (db.applyAll [.putAttempt (a.finish state r.exitCode r.reason (o.clock 0))]).job? j.id
      = some j := hj
  simp only [reread_self, hj', updateRow_some]
  have hrow : (db.applyAll [.putAttempt (a.finish state r.exitCode r.reason (o.clock 0))]).attempt?
      a.id = some (a.finish state r.exitCode r.reason (o.clock 0)) := Db.attempt?_putAttempt ha rfl
  have hjob : ((db.applyAll [.putAttempt (a.finish state r.exitCode r.reason (o.clock 0))]).apply
      (.putJob (j.setState next (oj.clock 0)))).job? j.id = some (j.setState next (oj.clock 0)) :=
    Db.job?_putJob hj' rfl
  exact accept_rejects (Option.isSome_of_eq_some hjob) (Option.isSome_of_eq_some hrow)

theorem Passes.jobID (h : Passes P db m r a j) : j.id = a.jobID := Db.job?_id h.job

theorem attemptBody_rejects (hm : m.reports = true) (h : Passes P db m r a j) (o : Oracle) :
    (s.attemptBody m r j.row a.id (a.check o)).FailsOnly P Err.rejects db := by
  have hj : db.job? j.id = some j := by rw [h.jobID, h.job]
  have hrec : (Store.recordArtifacts (Store.keyScope j.definition j.id r.attemptID) j.id a.id
      r.artifacts.elems).FailsOnly P Err.rejects db :=
    recordArtifacts_rejects h.artifacts h.stored h.distinct (Option.isSome_of_eq_some hj)
      (Option.isSome_of_eq_some h.attempt)
  have hbody : ∀ {k : Unit → Prog Response},
      (∀ mid : Db, mid.job? j.id = some j → mid.attempt? a.id = some a →
        (k ()).FailsOnly P Err.rejects mid) →
      (if (a.check o).state ≠ .running then .fail (.conflict none)
        else if !Store.reportOk r then .fail (.invalid none)
        else Store.recordArtifacts (Store.keyScope j.definition j.id r.attemptID) j.id a.id
          r.artifacts.elems >>= k : Prog Response).FailsOnly P Err.rejects db := by
    intro k hk
    have hrun : ¬ (a.check o).state ≠ .running := not_not.mpr h.running
    rw [if_neg hrun, if_neg (by simp [h.report])]
    refine FailsOnly.bind hrec (fun _ mid hmid => ?_)
    obtain ⟨new, rfl, -⟩ := recordArtifacts_recorded hmid
    exact hk _ hj h.attempt
  cases m with
  | reportProgress =>
      exact hbody (fun mid hj ha => accept_rejects (Option.isSome_of_eq_some hj)
        (Option.isSome_of_eq_some ha))
  | completeAttempt =>
      refine hbody (fun mid hj ha => ?_)
      dsimp only
      rw [if_neg (not_not.mpr (h.exit rfl))]
      exact finish_rejects ha hj
  | failAttempt => exact hbody (fun mid hj ha => finish_rejects ha hj)
  | _ => cases hm

theorem attempt_rejects (hm : m.reports = true) (hP : ∃ o, P o) (h : Passes P db m r a j) :
    (s.attempt m r).FailsOnly P Err.rejects db := by
  obtain ⟨o, ho⟩ := hP
  have htoken : ∃ t, Uuid.parse r.leaseToken = some t := by
    have hfence := h.fence o ho
    simp only [Store.fence, Bool.and_eq_true, decide_eq_true_eq] at hfence
    have htext : a.leaseToken.text = r.leaseToken := hfence.1.1.1.2
    rw [← Option.isSome_iff_exists, Uuid.parse_isSome, ← htext]
    exact Uuid.idPattern_text _
  obtain ⟨t, ht⟩ := htoken
  unfold Store.attempt
  rw [h.named, ht]
  refine failsOnly_total (fun _ => rfl) (fun _ _ => ?_)
  simp only [h.attempt, Option.map_some, Db.applyAll_nil]
  refine failsOnly_total (fun _ => rfl) (fun _ _ => ?_)
  simp only [reread_self, h.job, Option.map_some, Db.applyAll_nil]
  refine failsOnly_total (fun _ => rfl) (fun o ho => ?_)
  simp only [reread_self, h.attempt, Option.map_some, Db.applyAll_nil]
  rw [if_neg (by simp [h.fence o ho])]
  exact attemptBody_rejects hm h o

theorem rpcBody_rejects {w : WorkerRec} (hm : m.reports = true) (hP : ∃ o, P o)
    (hw : db.worker? r.workerID = some w) (hsession : w.sessionID = r.sessionID)
    (h : Passes P db m r a j) : (s.rpcBody m r).FailsOnly P Err.rejects db := by
  have hbody : (s.workerBody m r).FailsOnly P Err.rejects db := by
    refine failsOnly_total (fun _ => rfl) (fun _ _ => ?_)
    simp only [reread_self, hw, Db.applyAll_nil]
    rw [if_neg (not_not.mpr hsession)]
    refine failsOnly_total (fun _ => rfl) (fun o _ => ?_)
    simp only [reread_self, hw, updateRow_some]
    have h' : Passes P (db.applyAll [.putWorker { w with lastHeartbeatAt := o.clock 0 }]) m r a j :=
      { h with }
    cases m <;> first | exact attempt_rejects hm hP h' | cases hm
  cases m <;> first | exact hbody | cases hm

/-- The request passes the checks of `RPC` and `Mutate` and has no receipt. -/
structure Enters (db : Db) (m : Method) (r : Request) : Prop where
  ids : Store.idsOk r = true
  nonempty : r.requestID ≠ ""
  short : r.requestID.utf8ByteSize ≤ 256
  fresh : db.request? (Store.rpcScope m r) r.requestID = none

theorem rpc_rejects [Sha256] {w : WorkerRec} (hm : m.reports = true) (hP : ∃ o, P o)
    (he : Enters db m r) (hw : db.worker? r.workerID = some w) (hsession : w.sessionID = r.sessionID)
    (h : Passes P db m r a j) : (s.rpc m r).FailsOnly P Err.rejects db := by
  unfold Store.rpc
  rw [if_neg (by simp [he.ids])]
  unfold Store.mutate
  rw [if_neg (not_or.mpr ⟨he.nonempty, not_lt.mpr he.short⟩)]
  intro o ho
  simp only [Stmt.eval, he.fresh, Option.isSome_none, Bool.false_eq_true, ↓reduceIte]
  split
  · exact step_error (.inl rfl)
  refine step_ok (failsOnly_total (fun _ => rfl) (fun _ _ => ?_))
  have hfound : (db.withRequests (db.requests ++ [⟨Store.rpcScope m r, r.requestID,
      Sha256.hex r.toJson.marshal, none, o.clock 0⟩])).request? (Store.rpcScope m r) r.requestID
      = some ⟨Store.rpcScope m r, r.requestID, Sha256.hex r.toJson.marshal, none, o.clock 0⟩ :=
    Db.request?_append he.fresh
  simp only [reread_self, Db.applyAll_cons, Db.applyAll_nil, Db.apply]
  rw [← Db.withRequests, hfound]
  simp only [Option.map_some, ne_eq, not_true_eq_false, ↓reduceIte]
  refine FailsOnly.bind (rpcBody_rejects hm hP (w := w) hw hsession { h with }) (fun _ _ _ => ?_)
  exact failsOnly_total (fun _ => rfl) (fun _ _ => trivial)

/-! ### Batches -/

theorem submitLoop_rejects {js : List Job} (hvalid : ∀ j ∈ js, j.Valid) (hcons : db.Consistent js)
    (out : List JobRow) : (Store.submitLoop js out).FailsOnly P Err.rejects db := by
  induction js generalizing db out with
  | nil => trivial
  | cons j js ih =>
      have ih := fun {db : Db} (h : db.Consistent js) out =>
        ih (fun k hk => hvalid k (List.mem_cons_of_mem j hk)) h out
      refine failsOnly_total (fun _ => rfl) (fun oid _ => ?_)
      rw [Db.applyAll_nil]
      intro o _
      cases hnul : j.hasNul with
      | true =>
          simp only [Stmt.eval, hnul, ↓reduceIte]
          exact step_error (.inl rfl)
      | false =>
          rw [(hvalid j List.mem_cons_self).eval_insertJob hnul]
          cases hkey : db.jobByKey? j.idempotencyKey with
          | some r =>
              refine step_ok (failsOnly_total (fun _ => rfl) (fun _ _ => ?_))
              have hmarshal : r.row.definition.marshal = j.marshal :=
                congrArg Job.marshal (hcons.stored j List.mem_cons_self r hkey)
              simp only [Db.applyAll_nil, hkey, Option.map_some, hmarshal, ne_eq, not_true_eq_false,
                ↓reduceIte, Bool.false_eq_true]
              exact ih hcons.tail _
          | none =>
              simp only [Option.isSome_none, Bool.false_eq_true, ↓reduceIte]
              split
              · exact step_error (.inr rfl)
              · rename_i hid
                have hid : db.job? (Uuid.ID oid.rand) = none := by simpa using hid
                refine step_ok (failsOnly_total (fun _ => rfl) (fun _ _ => ?_))
                have hnew : (db.applyAll [.insertJob (j.newRow (Uuid.ID oid.rand) o)]).jobByKey?
                    j.idempotencyKey = some (j.newRow (Uuid.ID oid.rand) o) :=
                  Db.jobByKey?_insertJob (r := j.newRow (Uuid.ID oid.rand) o) hkey
                have hmarshal : (j.newRow (Uuid.ID oid.rand) o).row.definition.marshal = j.marshal := rfl
                simp only [Db.applyAll_nil, hnew, Option.map_some, hmarshal, ne_eq, not_true_eq_false,
                  ↓reduceIte]
                have hstored : (db.applyAll [.insertJob (j.newRow (Uuid.ID oid.rand) o)]).job?
                    (Uuid.ID oid.rand) = some (j.newRow (Uuid.ID oid.rand) o) :=
                  Db.job?_insertJob (r := j.newRow (Uuid.ID oid.rand) o) hid
                exact failsOnly_insertEvent (Option.isSome_of_eq_some hstored)
                  (fun _ h => absurd h.symm (Option.some_ne_none _)) (fun oe => ih (hcons.withJob hkey _ o oe) _)

theorem lockKeys_rejects (keys : List String) : (Store.lockKeys keys).FailsOnly P Err.rejects db := by
  induction keys generalizing db with
  | nil => trivial
  | cons key keys ih =>
      intro o _
      simp only [Stmt.eval]
      split
      · exact step_error (.inl rfl)
      · exact step_ok ih

end Rejects

/-! ## Accepted data are clean -/

section Accepted

variable {P : Oracle → Prop} {db db' : Db} {m : Method} {r : Request} {s : Store}

theorem accept_clean {job attempt : Uuid} {res : Response}
    (h : Runs P (Store.accept m r job attempt) db res db') : r.report.hasNul = false := by
  obtain ⟨o, _, ws, -, he, -⟩ := runs_sql_bind.mp h
  exact Stmt.insertEvent_ok he

theorem finish_clean {job attempt : Uuid} {state : AttemptState} {next : JobState} {res : Response}
    (h : Runs P (Store.finish m r job attempt state next) db res db') :
    r.report.hasNul = false ∧ Int4 r.exitCode := by
  obtain ⟨o, _, ws, -, he, h⟩ := runs_sql_bind.mp h
  obtain ⟨oj, _, h⟩ := runs_total (fun _ => rfl) h
  exact ⟨accept_clean h, Stmt.finishAttempt_ok he⟩

theorem attemptBody_clean {a : AttemptRec} {j : JobRec} {o : Oracle} {res : Response}
    (hm : m.reports = true) (h : Runs P (s.attemptBody m r j.row a.id (a.check o)) db res db') :
    r.report.hasNul = false ∧ (m = .failAttempt → Int4 r.exitCode) := by
  cases m with
  | reportProgress =>
      obtain ⟨-, _, mid, -, h⟩ := report_recording h
      exact ⟨accept_clean h, fun hne => (nomatch hne)⟩
  | completeAttempt =>
      obtain ⟨-, _, mid, -, h⟩ := report_recording h
      dsimp only at h
      split at h
      · exact absurd h not_runs_fail
      · exact ⟨(finish_clean h).1, fun hne => (nomatch hne)⟩
  | failAttempt =>
      obtain ⟨-, _, mid, -, h⟩ := report_recording h
      exact ⟨(finish_clean h).1, fun _ => (finish_clean h).2⟩
  | _ => cases hm

/-- A report that is applied is clean. -/
theorem perform_clean [Sha256] {c : Call} {res : Result} (h : Reachable db) (hop : c.op = .rpc m r)
    (hm : m.reports = true) (hfresh : db.request? (Store.rpcScope m r) r.requestID = none)
    (hok : perform c db = (.ok res, db')) : r.clean m = true := by
  have hdb : db.Sound := h.logged.1
  obtain ⟨response, rs, rs', mid, -, hbody, -⟩ :=
    perform_body (P := fun _ => True) hop (fun _ => trivial) hdb hfresh hok
  obtain ⟨hattempt, hne⟩ := Method.onAttempt_of_reports hm
  obtain ⟨w, o, -, hattempt⟩ := rpcBody_attempt hattempt (fun heq => absurd heq hne) hbody
  obtain ⟨a, j, o', -, hrep⟩ := attempt_fenced hattempt
  obtain ⟨hreport, hexit⟩ := attemptBody_clean hm hrep
  refine Request.clean_iff.mpr ⟨hreport, fun x hx => ?_, hexit⟩
  -- Every entry is stored by now, and what is stored holds no NUL.
  obtain ⟨a', j', new, -, -, hart, hnew⟩ := perform_reports hop hm hdb hfresh hok
  obtain ⟨row, hrow, rfl⟩ := hnew.stored x hx
  have hreach : Reachable db' := by
    have := h.perform c
    rwa [hok] at this
  exact hreach.artifacts_textOk row (hart ▸ hrow)

/-- The jobs of a batch that is accepted hold no NUL. -/
theorem submitLoop_clean {js : List Job} {out rows : List JobRow}
    (h : Runs P (Store.submitLoop js out) db rows db') : ∀ j ∈ js, j.hasNul = false := by
  induction js generalizing out db with
  | nil => simp
  | cons j js ih =>
      obtain ⟨_, _, h⟩ := runs_read (fun _ => rfl) h
      obtain ⟨o, inserted, ws, -, he, h⟩ := runs_sql_bind.mp h
      obtain ⟨_, _, h⟩ := runs_read (fun _ => rfl) h
      refine List.forall_mem_cons.mpr ⟨Stmt.insertJob_ok he, ?_⟩
      split at h
      · exact absurd h not_runs_fail
      split at h
      · exact absurd h not_runs_fail
      split at h
      · obtain ⟨_, _, h⟩ := runs_insertEvent h
        exact ih h
      · exact ih h

end Accepted

/-! ## Log lines -/

/-- `bytes.decode(errors="replace")`. No byte but zero becomes U+0000, and every zero
byte does. -/
class Utf8 where
  decode : List UInt8 → String
  nul_iff : ∀ bytes, Text.nul ∈ (decode bytes).toList ↔ 0 ∈ bytes

/-- The decoder of `Base/Utf8.lean`. -/
@[reducible] def Utf8Decode.replacing : Utf8 where
  decode bytes := String.ofList (Utf8Decode.decode bytes)
  nul_iff bytes := by rw [String.toList_ofList, Utf8Decode.nul_mem_decode]

/-- The line `read_logs` queues for a chunk of the command's output. -/
def Worker.logLine [Utf8] (chunk : List UInt8) : String := Text.rstrip (Utf8.decode chunk)

/-- Stripping white space leaves a NUL where it is. -/
theorem Worker.logLine_hasNul [Utf8] (chunk : List UInt8) :
    Text.hasNul (Worker.logLine chunk) = true ↔ 0 ∈ chunk := by
  rw [Text.hasNul, List.contains_eq_mem, decide_eq_true_eq, ← Utf8.nul_iff, Worker.logLine,
    Text.rstrip, String.toList_ofList, List.rdropWhile, List.mem_reverse]
  refine ⟨fun h => List.mem_reverse.mp ((List.dropWhile_suffix _).subset h), fun h => ?_⟩
  rw [← List.mem_reverse, ← List.takeWhile_append_dropWhile (p := Text.isSpace)
    (l := (Utf8.decode chunk).toList.reverse)] at h
  rcases List.mem_append.mp h with h | h
  · exact absurd (List.mem_takeWhile_imp h) (by decide)
  · exact h

/-! ## Rejected data -/

/-- PostgreSQL rejects the data of the call. -/
def Call.DataRejected [Sha256] (c : Call) (db : Db) : Prop :=
  ∃ e, (perform c db).1 = .error e ∧ e.data = true

section Calls

variable [Sha256] {db : Db} {c : Call}

theorem Prog.Fitting.call (h : (c.op.prog c.server).Fitting) :
    (∀ st, Executes st (c.op.prog c.server) db → st.DataOk) ∧ ¬ c.DataRejected db := by
  refine ⟨fun st hst => (h.safe db).executes hst, ?_⟩
  rintro ⟨e, he, hdata⟩
  unfold perform at he
  split at he
  · cases he
  · rename_i e' hrun
    cases he
    rw [(h.safe db).error hrun] at hdata
    cases hdata

/-- A transaction that passes its checks succeeds or has its data rejected, if the
ids it generates are not in use. -/
theorem FailsOnly.call {P : Oracle → Prop} (h : (c.op.prog c.server).FailsOnly P Err.rejects db)
    (hP : ∀ n, P (c.oracle n)) (hunique : (perform c db).1 ≠ .error (.db .unique)) :
    (∃ res, (perform c db).1 = .ok res) ∨ c.DataRejected db := by
  cases hrun : (c.op.prog c.server).run c.oracle db with
  | ok r => exact .inl ⟨r.1, by simp only [perform, hrun]⟩
  | error e =>
      have herr : (perform c db).1 = .error e := by simp only [perform, hrun]
      rcases h.error hP hrun with hdata | hid
      · exact .inr ⟨e, herr, hdata⟩
      · exact absurd (hid ▸ herr) hunique

end Calls

/-- Of a valid batch only U+0000 in a name, key or prefix is rejected, and of a report
that passes the checks only U+0000 in its texts and a failed attempt's exit code out of
the range of the column. A line of the command's output holds U+0000 exactly if the
output does. -/
theorem data_rejected_iff [Sha256] [Utf8] (db : Db) (h : Reachable db) (c : Call) :
    (∀ jobs, c.op = .submit jobs → (∀ j ∈ jobs, j.Valid) →
      ((∀ j ∈ jobs, (Text.hasNul j.name || Text.hasNul j.idempotencyKey ||
          Text.hasNul j.artifactPrefix) = false) →
        (∀ st, Executes st (c.op.prog c.server) db → st.DataOk) ∧ ¬ c.DataRejected db) ∧
      (1 ≤ jobs.length → jobs.length ≤ 1000 → db.Consistent jobs →
        (perform c db).1 ≠ .error (.db .unique) →
        (c.DataRejected db ↔ ∃ j ∈ jobs, (Text.hasNul j.name || Text.hasNul j.idempotencyKey ||
          Text.hasNul j.artifactPrefix) = true))) ∧
    (∀ m r, c.op = .rpc m r → m.reports = true →
      (r.clean m = true →
        (∀ st, Executes st (c.op.prog c.server) db → st.DataOk) ∧ ¬ c.DataRejected db) ∧
      ∀ w a j, Enters db m r → db.worker? r.workerID = some w → w.sessionID = r.sessionID →
        Passes (fun o => ∃ n, o = c.oracle n) db m r a j →
        (perform c db).1 ≠ .error (.db .unique) → (c.DataRejected db ↔ r.clean m = false)) ∧
    ∀ chunk, Text.hasNul (Worker.logLine chunk) = true ↔ 0 ∈ chunk := by
  refine ⟨fun jobs hop hvalid => ?_, fun m r hop hm => ?_, Worker.logLine_hasNul⟩
  · have hclean : (∀ j ∈ jobs, (Text.hasNul j.name || Text.hasNul j.idempotencyKey ||
        Text.hasNul j.artifactPrefix) = false) →
        (∀ st, Executes st (c.op.prog c.server) db → st.DataOk) ∧ ¬ c.DataRejected db := by
      intro hnul
      refine Prog.Fitting.call ?_
      rw [hop]
      exact All.bind (submit_fitting (fun j hj => by rw [(hvalid j hj).hasNul_eq]; exact hnul j hj))
        (fun _ => trivial)
    refine ⟨hclean, fun hpos hshort hcons hunique => ⟨fun hrej => ?_, fun ⟨j, hj, hnul⟩ => ?_⟩⟩
    · by_contra hno
      push Not at hno
      exact (hclean (fun j hj => by simpa using hno j hj)).2 hrej
    · have hfails : (c.op.prog c.server).FailsOnly (fun _ => True) Err.rejects db := by
        rw [hop]
        have hlen : ¬ (jobs.length < 1 ∨ jobs.length > 1000) := by omega
        have hfind : jobs.findSome? Job.validate = none := List.findSome?_eq_none_iff.mpr hvalid
        refine FailsOnly.bind ?_ (fun _ _ _ => trivial)
        unfold Store.submit
        rw [if_neg hlen, hfind]
        refine FailsOnly.bind (lockKeys_rejects _) (fun _ mid hmid => ?_)
        rw [lockKeys_runs hmid]
        exact submitLoop_rejects hvalid hcons []
      rcases FailsOnly.call hfails (fun _ => trivial) hunique with ⟨res, hres⟩ | hrej
      · have hok : perform c db = (.ok res, (perform c db).2) := Prod.ext hres rfl
        have hrun := runs_of_run (P := fun _ => True) (fun _ => trivial) (perform_ok.mp hok)
        rw [hop] at hrun
        obtain ⟨rows, mid, hsubmit, -⟩ := runs_bind.mp hrun
        unfold Store.submit at hsubmit
        split at hsubmit
        · exact absurd hsubmit not_runs_fail
        split at hsubmit
        · exact absurd hsubmit not_runs_fail
        obtain ⟨_, _, -, hloop⟩ := runs_bind.mp hsubmit
        rw [← (hvalid j hj).hasNul_eq, submitLoop_clean hloop j hj] at hnul
        cases hnul
      · exact hrej
  · have hclean : r.clean m = true →
        (∀ st, Executes st (c.op.prog c.server) db → st.DataOk) ∧ ¬ c.DataRejected db := by
      intro hr
      refine Prog.Fitting.call ?_
      rw [hop]
      exact All.bind (rpc_fitting hm hr) (fun _ => trivial)
    refine ⟨hclean, fun w a j henters hw hsession hpass hunique => ⟨fun hrej => ?_, fun hdirty => ?_⟩⟩
    · by_contra hno
      exact (hclean (by simpa using hno)).2 hrej
    · have hfails : (c.op.prog c.server).FailsOnly (fun o => ∃ n, o = c.oracle n) Err.rejects db := by
        rw [hop]
        exact FailsOnly.bind (rpc_rejects hm ⟨_, 0, rfl⟩ henters hw hsession hpass)
          (fun _ _ _ => trivial)
      rcases FailsOnly.call hfails (fun n => ⟨n, rfl⟩) hunique with ⟨res, hres⟩ | hrej
      · rw [perform_clean h hop hm henters.fresh (Prod.ext hres rfl :
          perform c db = (.ok res, (perform c db).2))] at hdirty
        cases hdirty
      · exact hrej

namespace Sample

/-- A job whose name holds U+0000. -/
def nulJob : Job := { job with name := String.singleton Text.nul }

end Sample

/-- A valid job with such a name is rejected by the database. -/
theorem data_rejected_iff_sample : Sample.nulJob.Valid ∧
    @Call.DataRejected Sample.digest ⟨Sample.server, .submit [Sample.nulJob], Sample.oracle 1000⟩
      Db.empty := by
  refine ⟨by decide, ?_⟩
  refine (((@data_rejected_iff Sample.digest Utf8Decode.replacing Db.empty ⟨[], rfl⟩
    ⟨Sample.server, .submit [Sample.nulJob], Sample.oracle 1000⟩).1 [Sample.nulJob] rfl
    (by decide)).2 (by decide) (by decide) ⟨?_, ?_⟩ (by decide +kernel)).mpr (by decide)
  · intro j _ r hr
    cases hr
  · intro j hj k hk _
    rw [List.mem_singleton.mp hj, List.mem_singleton.mp hk]

/-- A running command writes a zero byte. The worker reports the line, and the
database rejects the event. -/
theorem output_with_nul_rejected :
    (@perform Sample.digest ⟨Sample.server, .rpc .reportProgress { Sample.request "4" with
        logs := some [@Worker.logLine Utf8Decode.replacing [0, 10]] }, Sample.oracle 5000⟩
      (@exec Sample.digest (Sample.leased ++ [Sample.startCall]) Db.empty)).1
      = .error (.db .invalidText) := by
  rw [@exec_concat Sample.digest, Sample.leased_exec]
  decide +kernel

end Rungrid
