-- SUMMARY: Every mutation of the store can be redone at once when it commits.
import Rungrid.Isolation.Statements

/-!
# Mutations amid commits

The bodies of `Action` and `RPC` are sequences of exact statements, because they
lock the worker before the job and the job before the attempt. Two places need
more. A lease sums the usage of its worker without locking the attempts; by the
time it commits the sum can only have shrunk, so the job it took still fits. And a
report looks an object key up before it inserts the artifact; that the key is still
free is known from the insert.
-/

namespace Rungrid

open Prog (sql)

variable {b e : Time} {x y : Point}

/-! ## Actions -/

section Action

theorem finishAction_redone {id : Uuid} {a : Action} {requestID : String} {state : JobState}
    {max : Int} {res : Response}
    (h : Amid (Oracle.Within b e) x (Store.finishAction id a requestID state max) res y)
    (hx : x.Owns) (hl : .job id ∈ x.locks) :
    Redone (Oracle.Within b e) x (Store.finishAction id a requestID state max) res y := by
  unfold Store.finishAction Store.event at h ⊢
  obtain ⟨_, _, _, _, _, hset, h⟩ := h.sql
  have hex₁ := hset.setJob hx hl
  have hx₁ := hset.owns hx hex₁.owned
  have hl₁ := hset.locks_subset hl
  refine .sql hx hex₁ h ?_
  obtain ⟨_, _, _, _, _, hevent, h⟩ := h.sql
  obtain ⟨hex₂, -⟩ := hevent.insertEvent hl₁
  have hx₂ := hevent.owns hx₁ hex₂.owned
  refine .sql hx₁ hex₂ h ?_
  obtain ⟨_, _, _, row, _, hread, h⟩ := h.sql
  obtain ⟨hex₃, rfl⟩ := hread.jobByID hx₂ (hevent.locks_subset hl₁)
  refine .sql hx₂ hex₃ h ?_
  cases row with
  | none => exact absurd h not_amid_fail
  | some j =>
      obtain ⟨rfl, rfl⟩ := amid_done.mp h
      exact .done _ (hread.owns hx₂ hex₃.owned)

theorem actionBody_redone {id requestID : String} {a : Action} {res : Response}
    (h : Amid (Oracle.Within b e) x (Store.actionBody id a requestID) res y) (hx : x.Owns) :
    Redone (Oracle.Within b e) x (Store.actionBody id a requestID) res y := by
  unfold Store.actionBody at h ⊢
  cases hparse : Uuid.parse id with
  | none =>
      rw [hparse] at h
      exact absurd h not_amid_fail
  | some jobID =>
      rw [hparse] at h
      simp only at h ⊢
      obtain ⟨_, _, _, row, _, hlock, h⟩ := h.sql
      cases row with
      | none => exact absurd h not_amid_fail
      | some j =>
          obtain ⟨hex, rfl, hl, -⟩ := hlock.lockJob
          have hx₁ := hlock.owns hx hex.owned
          refine .sql hx hex h ?_
          cases a with
          | unknown name => exact absurd h not_amid_fail
          | retry => exact .guard h (fun _ h => finishAction_redone h hx₁ hl)
          | cancel =>
              refine .guard h (fun _ h => ?_)
              refine .ite h (fun _ h => ?_) (fun _ h => finishAction_redone h hx₁ hl)
              obtain ⟨_, _, _, _, _, hcancel, h⟩ := h.sql
              have hex₂ := hcancel.cancelAttempts hx₁ hl
              exact .sql hx₁ hex₂ h (finishAction_redone h (hcancel.owns hx₁ hex₂.owned)
                (hcancel.locks_subset hl))

end Action

/-! ## Registration -/

theorem registerBody_redone {r : Request} {res : Response}
    (h : Amid (Oracle.Within b e) x (Store.registerBody r) res y) (hx : x.Owns) :
    Redone (Oracle.Within b e) x (Store.registerBody r) res y := by
  unfold Store.registerBody at h ⊢
  refine .guard h (fun hvalid h => ?_)
  simp only [not_or, not_not] at hvalid
  obtain ⟨_, _, _, _, _, hinsert, h⟩ := h.sql
  have hex₁ := hinsert.insertWorker hvalid.1
  have hx₁ := hinsert.owns hx hex₁.owned
  refine .sql hx hex₁ h ?_
  obtain ⟨_, _, _, row, _, hlock, h⟩ := h.sql
  cases row with
  | none => exact absurd h not_amid_fail
  | some w =>
      obtain ⟨hex₂, rfl, -⟩ := hlock.lockWorker
      refine .sql hx₁ hex₂ h (.guard h (fun _ h => ?_))
      obtain ⟨rfl, rfl⟩ := amid_done.mp h
      exact .done _ (hlock.owns hx₁ hex₂.owned)

/-! ## Placement -/

section Lease

/-- So far the transaction has only written receipts and worker rows. -/
def Point.Light (x : Point) : Prop :=
  ∀ w ∈ x.writes, (∃ row, w = .insertRequest row) ∨ ∃ row, w = .putWorker row

theorem Point.Light.after {C : Db} {st : Stmt} {r : st.Result} {ws : List Write} (h : x.Light)
    (hws : ∀ w ∈ ws, (∃ row, w = .insertRequest row) ∨ ∃ row, w = .putWorker row) :
    (x.after C st r ws).Light := by
  intro w hw
  rcases List.mem_append.mp hw with hw | hw
  · exact h w hw
  · exact hws w hw

theorem Point.Light.used (h : x.Light) (Z : Db) (worker : String) :
    (Z.applyAll x.writes).used worker = Z.used worker := by
  unfold Point.Light at h
  generalize x.writes = ws at h
  induction ws generalizing Z with
  | nil => rfl
  | cons w ws ih =>
      rw [Db.applyAll_cons, ih _ (fun v hv => h v (List.mem_cons_of_mem w hv))]
      rcases h w List.mem_cons_self with ⟨row, rfl⟩ | ⟨row, rfl⟩ <;> rfl

/-- With the other rows passed over, the placement query picks a job that fits. -/
theorem Db.findSome?_placement {X : Db} {j : JobRec} {limit : Resources}
    (hj : X.job? j.id = some j) (hfits : j.placeable limit) :
    (X.placement limit).findSome? (fun i =>
      if decide (i.id ≠ j.id) then none else (X.job? i.id).filter (·.placeable limit)) = some j := by
  have hmem : j ∈ X.placement limit := by
    rw [Db.placement, List.mem_insertionSort, List.mem_filter]
    exact ⟨mem_of_job? hj, hfits⟩
  have hself : (X.job? j.id).filter (·.placeable limit) = some j := by simp [hj, hfits]
  generalize X.placement limit = l at hmem
  induction l with
  | nil => cases hmem
  | cons i l ih =>
      rw [List.findSome?_cons]
      by_cases hid : i.id = j.id
      · simp [hid, hself]
      · rcases List.mem_cons.mp hmem with rfl | hmem
        · exact absurd rfl hid
        · simpa [hid] using ih hmem

/-- A smaller usage leaves room for at least as much. -/
theorem JobRec.placeable_mono {j : JobRec} {cap used used' : Resources} (h : used'.Le used)
    (hj : j.placeable (cap.sub used)) : j.placeable (cap.sub used') := by
  simp only [JobRec.placeable, Bool.and_eq_true, decide_eq_true_eq] at hj ⊢
  refine ⟨hj.1, hj.2.trans ?_⟩
  obtain ⟨hc, hm, hg⟩ := h
  exact ⟨Int.sub_le_sub_left hc _, Int.sub_le_sub_left hm _, Int.sub_le_sub_left hg _⟩

/-- The placement query takes a job that still fits when the transaction commits,
since the usage of a held worker only shrinks. -/
theorem place_redone {α : Type} {worker : String} {cap : Resources}
    {f : Resources → Option JobRow → Prog α} {a : α}
    (h : Amid (Oracle.Within b e) x (sql (.sumUsed worker) >>= fun used =>
      sql (.pickJob (cap.sub used)) >>= f used) a y)
    (hx : x.Owns) (hlight : x.Light) (hl : .worker worker ∈ x.locks)
    (hf : ∀ used used' found, f used found = f used' found)
    (hk : ∀ {m : Point} {used : Resources} {found : Option JobRow}, m.Owns → x.locks ⊆ m.locks →
      (∀ j, found = some j → .job j.id ∈ m.locks) → Amid (Oracle.Within b e) m (f used found) a y →
      Redone (Oracle.Within b e) m (f used found) a y) :
    Redone (Oracle.Within b e) x (sql (.sumUsed worker) >>= fun used =>
      sql (.pickJob (cap.sub used)) >>= f used) a y := by
  obtain ⟨o₁, S₁, C₁, used, ws₁, hsum, h⟩ := h.sql
  obtain ⟨rfl, rfl⟩ : (S₁.applyAll x.writes).used worker = used ∧ [] = ws₁ := by
    simpa [Stmt.eval] using hsum.eval
  have hx₁ := hsum.owns hx trivial
  obtain ⟨o₂, S₂, C₂, found, ws₂, hpick, h⟩ := h.sql
  have he := hpick.eval
  simp only [Stmt.eval, Except.ok.injEq, Prod.mk.injEq] at he
  obtain ⟨hfound, rfl⟩ := he
  have hx₂ := hpick.owns hx₁ trivial
  have hlock : ∀ j, found = some j → Lock.job j.id ∈
      (x.after C₁ (.sumUsed worker) ((S₁.applyAll x.writes).used worker) []).locks ++
        (Stmt.pickJob (cap.sub ((S₁.applyAll x.writes).used worker))).takes found [] := by
    rintro j rfl
    exact List.mem_append_right _ (by simp [Stmt.takes, Stmt.selects])
  have hrest := hk hx₂ (fun _ hmem => hpick.locks_subset (hsum.locks_subset hmem)) hlock h
  refine ⟨hrest.owns, fun {Z} hZ => ?_⟩
  obtain ⟨hsub, henv⟩ := h.env hx₂.tidy
  -- What the worker's attempts use when the transaction commits.
  have hused : ((Z.applyAll x.writes).used worker).Le ((S₁.applyAll x.writes).used worker) := by
    have hC₂ := hsum.wait.trans ((hpick.snap.trans hpick.wait).mono hsum.locks_subset)
    have hy := henv.mono (fun _ hmem => hpick.locks_subset (hsum.locks_subset hmem))
    have hend := hZ.mono (fun _ hmem => hsub (hpick.locks_subset (hsum.locks_subset hmem)))
    rw [hlight.used, hlight.used]
    exact ((hC₂.trans hy).trans hend).used hl
  have hreplay := hrest.replays hZ
  simp only [Point.after, List.append_nil] at hreplay
  rw [hf _ ((Z.applyAll x.writes).used worker)] at hreplay
  have hsumZ : (Stmt.sumUsed worker).Redo (Oracle.Within b e) (Z.applyAll x.writes)
      ((Z.applyAll x.writes).used worker) [] := ⟨o₁, [], hsum.oracle, rfl, rfl⟩
  have hpickZ : (Stmt.pickJob (cap.sub ((Z.applyAll x.writes).used worker))).Redo
      (Oracle.Within b e) (Z.applyAll x.writes) found [] := by
    cases found with
    | none =>
        exact ⟨{ o₂ with locked := fun _ => true }, [], hpick.oracle, by simp [Stmt.eval], rfl⟩
    | some row =>
        obtain ⟨j, rfl, hj, hfits⟩ := pickJob_some hfound
        have hjZ : (Z.applyAll x.writes).job? j.id = some j := by
          have hview := (h.view hx₂ hZ).jobHeld (hlock j.row rfl)
          simp only [Point.after, List.append_nil] at hview hj
          exact hview.trans hj
        refine ⟨{ o₂ with locked := fun i => decide (i ≠ j.id) }, [], hpick.oracle, ?_, rfl⟩
        have hfind := Db.findSome?_placement hjZ (JobRec.placeable_mono hused hfits)
        simp only [Stmt.eval]
        rw [hfind, Option.map_some]
  exact .sql hsumZ (.sql hpickZ hreplay)

theorem lease_redone {s : Store} {r : Request} {cap : Resources} {res : Response}
    (h : Amid (Oracle.Within b e) x (s.lease r cap) res y) (hx : x.Owns) (hlight : x.Light)
    (hl : .worker r.workerID ∈ x.locks) : Redone (Oracle.Within b e) x (s.lease r cap) res y := by
  unfold Store.lease Store.event at h ⊢
  refine place_redone h hx hlight hl (fun _ _ found => by cases found <;> rfl)
    (fun {x used found} hx hsub hfound h => ?_)
  cases found with
  | none =>
      obtain ⟨rfl, rfl⟩ := amid_done.mp h
      exact .done _ hx
  | some j =>
      have hworker := hsub hl
      have hjob := hfound j rfl
      obtain ⟨_, _, _, _, _, hid, h⟩ := h.sql
      obtain ⟨hex₁, rfl⟩ := hid.newID
      have hx₁ := hid.owns hx hex₁.owned
      have hjob := hid.locks_subset hjob
      have hworker := hid.locks_subset hworker
      refine .sql hx hex₁ h ?_
      obtain ⟨_, _, _, _, _, htoken, h⟩ := h.sql
      obtain ⟨hex₂, rfl⟩ := htoken.newID
      have hx₂ := htoken.owns hx₁ hex₂.owned
      have hjob := htoken.locks_subset hjob
      have hworker := htoken.locks_subset hworker
      refine .sql hx₁ hex₂ h ?_
      obtain ⟨_, _, _, ⟨number, expires, now⟩, _, hinsert, h⟩ := h.sql
      have hex₃ := hinsert.insertAttempt hx₂ hjob hworker
      have hx₃ := hinsert.owns hx₂ hex₃.owned
      have hjob := hinsert.locks_subset hjob
      refine .sql hx₂ hex₃ h (.guard h (fun _ h => ?_))
      obtain ⟨_, _, _, _, _, hset, h⟩ := h.sql
      have hex₄ := hset.setJobState hx₃ hjob
      have hx₄ := hset.owns hx₃ hex₄.owned
      have hjob := hset.locks_subset hjob
      refine .sql hx₃ hex₄ h ?_
      obtain ⟨_, _, _, _, _, hcheck, h⟩ := h.sql
      obtain ⟨hex₅, rfl⟩ := hcheck.checkpoint hx₄ hjob
      have hx₅ := hcheck.owns hx₄ hex₅.owned
      have hjob := hcheck.locks_subset hjob
      refine .sql hx₄ hex₅ h ?_
      obtain ⟨_, _, _, _, _, hevent, h⟩ := h.sql
      obtain ⟨hex₆, -⟩ := hevent.insertEvent hjob
      refine .sql hx₅ hex₆ h ?_
      obtain ⟨rfl, rfl⟩ := amid_done.mp h
      exact .done _ (hevent.owns hx₅ hex₆.owned)

end Lease

/-! ## Attempts -/

section Attempt

theorem accept_redone {m : Method} {r : Request} {jobID attemptID : Uuid} {res : Response}
    (h : Amid (Oracle.Within b e) x (Store.accept m r jobID attemptID) res y) (hx : x.Owns)
    (hl : .job jobID ∈ x.locks) :
    Redone (Oracle.Within b e) x (Store.accept m r jobID attemptID) res y := by
  unfold Store.accept Store.event at h ⊢
  obtain ⟨_, _, _, _, _, hevent, h⟩ := h.sql
  obtain ⟨hex, -⟩ := hevent.insertEvent hl
  refine .sql hx hex h ?_
  obtain ⟨rfl, rfl⟩ := amid_done.mp h
  exact .done _ (hevent.owns hx hex.owned)

theorem finish_redone {m : Method} {r : Request} {jobID attemptID : Uuid} {state : AttemptState}
    {next : JobState} {res : Response} {a : AttemptRec}
    (h : Amid (Oracle.Within b e) x (Store.finish m r jobID attemptID state next) res y) (hx : x.Owns)
    (ha : x.view.attempt? attemptID = some a) (hjob : a.jobID = jobID) (hl : .job jobID ∈ x.locks)
    (hact : a.state.active) :
    Redone (Oracle.Within b e) x (Store.finish m r jobID attemptID state next) res y := by
  unfold Store.finish at h ⊢
  obtain ⟨_, _, _, _, _, hfinish, h⟩ := h.sql
  have hex₁ := hfinish.finishAttempt hx ha (hjob ▸ hl) hact
  have hx₁ := hfinish.owns hx hex₁.owned
  have hl₁ := hfinish.locks_subset hl
  refine .sql hx hex₁ h ?_
  obtain ⟨_, _, _, _, _, hset, h⟩ := h.sql
  have hex₂ := hset.setJobState hx₁ hl₁
  exact .sql hx₁ hex₂ h (accept_redone h (hset.owns hx₁ hex₂.owned) (hset.locks_subset hl₁))

/-- The loop over the artifacts, which leaves the attempts alone. -/
theorem recordArtifacts_redone {scope : String} {jobID attemptID : Uuid} {as : List Artifact} {u : Unit}
    (h : Amid (Oracle.Within b e) x (Store.recordArtifacts scope jobID attemptID as) u y) (hx : x.Owns)
    (hl : .job jobID ∈ x.locks) :
    Redone (Oracle.Within b e) x (Store.recordArtifacts scope jobID attemptID as) u y ∧
      ∀ {id : Uuid} {a : AttemptRec}, x.view.attempt? id = some a → .job a.jobID ∈ x.locks →
        y.view.attempt? id = some a := by
  induction as generalizing x with
  | nil =>
      obtain ⟨rfl, rfl⟩ := amid_done.mp h
      exact ⟨.done _ hx, fun ha _ => ha⟩
  | cons a as ih =>
      rw [Store.recordArtifacts] at h ⊢
      split at h
      · exact absurd h not_amid_fail
      rename_i hok
      rw [if_neg hok]
      obtain ⟨o₁, S₁, C₁, existing, ws₁, hread, h⟩ := h.sql
      cases existing with
      | some found =>
          obtain ⟨hex, rfl⟩ := hread.artifactByKey hx
          have hx₁ := hread.owns hx hex.owned
          simp only at h
          split at h
          · exact absurd h not_amid_fail
          rename_i hsame
          obtain ⟨hrest, hkeep⟩ := ih h hx₁ (hread.locks_subset hl)
          refine ⟨.sql hx hex (by simpa only [if_neg hsame] using h)
            (by simpa only [if_neg hsame] using hrest), fun ha hla => ?_⟩
          exact hkeep (hread.attempt_after hx ha hla (fun _ => rfl)) (hread.locks_subset hla)
      | none =>
          have he := hread.eval
          simp only [Stmt.eval, Except.ok.injEq, Prod.mk.injEq] at he
          obtain ⟨-, rfl⟩ := he
          have hx₁ := hread.owns hx trivial
          have hl₁ := hread.locks_subset hl
          simp only at h
          obtain ⟨o₂, S₂, C₂, id, ws₂, hid, h⟩ := h.sql
          obtain ⟨hex₂, rfl⟩ := hid.newID
          have hx₂ := hid.owns hx₁ hex₂.owned
          have hl₂ := hid.locks_subset hl₁
          have hafter := h
          obtain ⟨o₃, S₃, C₃, _, ws₃, hinsert, h⟩ := h.sql
          obtain ⟨hex₃, ⟨row, rfl⟩, hfree, hobject⟩ := hinsert.insertArtifact hl₂
          have hx₃ := hinsert.owns hx₂ hex₃.owned
          obtain ⟨hrest, hkeep⟩ := ih h hx₃ (hinsert.locks_subset hl₂)
          have htail : Redone (Oracle.Within b e) _ (sql .newID >>= fun id =>
              sql (.insertArtifact id jobID attemptID a) >>= fun _ =>
                Store.recordArtifacts scope jobID attemptID as) u y :=
            .sql hx₁ hex₂ hafter (.sql hx₂ hex₃ h hrest)
          refine ⟨⟨htail.owns, fun {Z} hZ => ?_⟩, fun ha hla => ?_⟩
          · -- The key was free when the artifact was inserted, and it is taken since.
            have hnone := (h.view hx₃ hZ).objectFree hobject hfree
            have hreplay := htail.replays hZ
            simp only [Point.after, List.append_nil] at hnone hreplay
            have hredo : (Stmt.artifactByKey a.objectKey).Redo (Oracle.Within b e)
                (Z.applyAll x.writes) none [] :=
              ⟨o₁, [], hread.oracle, by simp only [Stmt.eval, hnone, Option.map_none], rfl⟩
            exact .sql hredo hreplay
          · have hla₁ := hread.locks_subset hla
            have hla₂ := hid.locks_subset hla₁
            have ha₁ := hread.attempt_after hx ha hla (fun _ => rfl)
            have ha₂ := hid.attempt_after hx₁ ha₁ hla₁ (fun _ => rfl)
            exact hkeep (hinsert.attempt_after hx₂ ha₂ hla₂ (fun _ => rfl)) (hinsert.locks_subset hla₂)

/-- A report records its artifacts before it goes on. -/
theorem report_redone {scope : String} {jobID attemptID : Uuid} {as : List Artifact}
    {f : Unit → Prog Response} {res : Response} {a : AttemptRec}
    (h : Amid (Oracle.Within b e) x (Store.recordArtifacts scope jobID attemptID as >>= f) res y)
    (hx : x.Owns) (ha : x.view.attempt? attemptID = some a) (hjob : a.jobID = jobID)
    (hl : .job jobID ∈ x.locks)
    (hf : ∀ {z : Point}, z.Owns → z.view.attempt? attemptID = some a → .job jobID ∈ z.locks →
      Amid (Oracle.Within b e) z (f ()) res y → Redone (Oracle.Within b e) z (f ()) res y) :
    Redone (Oracle.Within b e) x (Store.recordArtifacts scope jobID attemptID as >>= f) res y := by
  obtain ⟨_, z, hrec, h⟩ := h.bind
  obtain ⟨hred, hkeep⟩ := recordArtifacts_redone hrec hx hl
  have hsub := (hrec.env hx.tidy).1
  exact hred.bind h (hf hred.owns (hkeep ha (hjob ▸ hl)) (hsub hl) h)

theorem attemptBody_redone {s : Store} {m : Method} {r : Request} {j : JobRow} {attemptID : Uuid}
    {c : AttemptCheck} {res : Response} {a : AttemptRec}
    (h : Amid (Oracle.Within b e) x (s.attemptBody m r j attemptID c) res y) (hx : x.Owns)
    (ha : x.view.attempt? attemptID = some a) (hjob : a.jobID = j.id) (hl : .job j.id ∈ x.locks)
    (hact : a.state.active) :
    Redone (Oracle.Within b e) x (s.attemptBody m r j attemptID c) res y := by
  unfold Store.attemptBody at h ⊢
  cases m with
  | heartbeat =>
      obtain ⟨_, _, _, renewed, _, hrenew, h⟩ := h.sql
      have hex := hrenew.renewAttempt hx ha (hjob ▸ hl) hact
      refine .sql hx hex h ?_
      cases renewed with
      | none => exact absurd h not_amid_fail
      | some times =>
          obtain ⟨rfl, rfl⟩ := amid_done.mp h
          exact .done _ (hrenew.owns hx hex.owned)
  | startAttempt =>
      refine .ite h (fun _ h => ?_) (fun _ h => accept_redone h hx hl)
      obtain ⟨_, _, _, _, _, hstart, h⟩ := h.sql
      have hex₁ := hstart.startAttempt hx ha (hjob ▸ hl) hact
      have hx₁ := hstart.owns hx hex₁.owned
      have hl₁ := hstart.locks_subset hl
      refine .sql hx hex₁ h ?_
      obtain ⟨_, _, _, _, _, hset, h⟩ := h.sql
      have hex₂ := hset.setJobState hx₁ hl₁
      exact .sql hx₁ hex₂ h (accept_redone h (hset.owns hx₁ hex₂.owned) (hset.locks_subset hl₁))
  | reportProgress =>
      refine .guard h (fun _ h => .guard h (fun _ h => report_redone h hx ha hjob hl ?_))
      exact fun hz _ hlz h => accept_redone h hz hlz
  | completeAttempt =>
      refine .guard h (fun _ h => .guard h (fun _ h => report_redone h hx ha hjob hl ?_))
      exact fun hz haz hlz h => .guard h (fun _ h => finish_redone h hz haz hjob hlz hact)
  | failAttempt =>
      refine .guard h (fun _ h => .guard h (fun _ h => report_redone h hx ha hjob hl ?_))
      exact fun hz haz hlz h => finish_redone h hz haz hjob hlz hact
  | registerWorker => exact absurd h not_amid_fail
  | leaseJob => exact absurd h not_amid_fail
  | releaseWorker => exact absurd h not_amid_fail
  | unknown name => exact absurd h not_amid_fail

theorem attempt_redone {s : Store} {m : Method} {r : Request} {res : Response}
    (h : Amid (Oracle.Within b e) x (s.attempt m r) res y) (hx : x.Owns) :
    Redone (Oracle.Within b e) x (s.attempt m r) res y := by
  unfold Store.attempt at h ⊢
  cases hid : Uuid.parse r.attemptID with
  | none =>
      rw [hid] at h
      exact absurd h not_amid_fail
  | some attemptID =>
  cases htoken : Uuid.parse r.leaseToken with
  | none =>
      rw [hid, htoken] at h
      exact absurd h not_amid_fail
  | some token =>
      rw [hid, htoken] at h
      simp only at h ⊢
      obtain ⟨_, _, _, owner, _, hread, h⟩ := h.sql
      cases owner with
      | none => exact absurd h not_amid_fail
      | some jobID =>
          obtain ⟨hex₁, rfl, a₁, ha₁, hjob₁⟩ := hread.attemptJob hx
          have hx₁ := hread.owns hx hex₁.owned
          refine .sql hx hex₁ h ?_
          obtain ⟨_, _, _, row, _, hlock, h⟩ := h.sql
          cases row with
          | none => exact absurd h not_amid_fail
          | some j =>
              obtain ⟨hex₂, rfl, hl, rfl⟩ := hlock.lockJob
              have hx₂ := hlock.owns hx₁ hex₂.owned
              obtain ⟨a, ha, hjob⟩ := hlock.attempt_kept hx₁ ha₁
              have hjob := hjob.trans hjob₁
              refine .sql hx₁ hex₂ h ?_
              obtain ⟨_, _, _, checked, _, hcheck, h⟩ := h.sql
              cases checked with
              | none => exact absurd h not_amid_fail
              | some c =>
                  obtain ⟨hex₃, rfl, rfl⟩ := hcheck.lockAttempt hx₂ ha (by rw [hjob]; exact hl)
                  have hx₃ := hcheck.owns hx₂ hex₃.owned
                  refine .sql hx₂ hex₃ h (.guard h (fun hfence h => ?_))
                  have hact : a.state.active := by
                    simp only [Bool.not_eq_true', Bool.not_eq_false, Store.fence,
                      Bool.and_eq_true] at hfence
                    exact hfence.2
                  have ha' := hcheck.attempt_after hx₂ ha (by rw [hjob]; exact hl) (fun _ => rfl)
                  exact attemptBody_redone h hx₃ ha' hjob (hcheck.locks_subset hl) hact

end Attempt

/-! ## RPC and Mutate -/

section Mutate

theorem workerBody_redone {s : Store} {m : Method} {r : Request} {res : Response}
    (h : Amid (Oracle.Within b e) x (s.workerBody m r) res y) (hx : x.Owns) (hlight : x.Light) :
    Redone (Oracle.Within b e) x (s.workerBody m r) res y := by
  unfold Store.workerBody at h ⊢
  obtain ⟨_, _, _, row, _, hlock, h⟩ := h.sql
  cases row with
  | none => exact absurd h not_amid_fail
  | some w =>
      obtain ⟨hex₁, rfl, hl₁⟩ := hlock.lockWorker
      have hx₁ := hlock.owns hx hex₁.owned
      refine .sql hx hex₁ h (.guard h (fun _ h => ?_))
      obtain ⟨_, _, _, _, ws, htouch, h⟩ := h.sql
      obtain ⟨hex₂, hws⟩ := htouch.touchWorker hx₁ hl₁
      have hx₂ := htouch.owns hx₁ hex₂.owned
      have hl₂ := htouch.locks_subset hl₁
      refine .sql hx₁ hex₂ h ?_
      cases m with
      | leaseJob =>
          refine .guard h (fun _ h => lease_redone h hx₂ (.after (.after hlight ?_) ?_) hl₂)
          · exact fun w hw => absurd hw List.not_mem_nil
          · exact fun w hw => .inr (hws w hw)
      | releaseWorker =>
          obtain ⟨_, _, _, _, _, hdrain, h⟩ := h.sql
          have hex₃ := hdrain.drainWorker hx₂ hl₂
          refine .sql hx₂ hex₃ h ?_
          obtain ⟨rfl, rfl⟩ := amid_done.mp h
          exact .done _ (hdrain.owns hx₂ hex₃.owned)
      | heartbeat =>
          refine .ite h (fun _ h => ?_) (fun _ h => attempt_redone h hx₂)
          obtain ⟨rfl, rfl⟩ := amid_done.mp h
          exact .done _ hx₂
      | startAttempt => exact attempt_redone h hx₂
      | reportProgress => exact attempt_redone h hx₂
      | completeAttempt => exact attempt_redone h hx₂
      | failAttempt => exact attempt_redone h hx₂
      | registerWorker => exact absurd h not_amid_fail
      | unknown name => exact absurd h not_amid_fail

theorem rpcBody_redone {s : Store} {m : Method} {r : Request} {res : Response}
    (h : Amid (Oracle.Within b e) x (s.rpcBody m r) res y) (hx : x.Owns) (hlight : x.Light) :
    Redone (Oracle.Within b e) x (s.rpcBody m r) res y := by
  unfold Store.rpcBody at h ⊢
  cases m with
  | registerWorker => exact registerBody_redone h hx
  | _ => exact workerBody_redone h hx hlight

variable [Sha256]

/-- A mutation can be redone when its body can. -/
theorem mutate_redone {scope id : String} {payload : Json} {fn : Prog Response} {res : Response}
    (hfn : ∀ {x y : Point} {res : Response}, Amid (Oracle.Within b e) x fn res y → x.Owns → x.Light →
      Redone (Oracle.Within b e) x fn res y)
    (h : Amid (Oracle.Within b e) x (Store.mutate scope id payload fn) res y) (hx : x.Owns)
    (hnew : x.writes = []) :
    Redone (Oracle.Within b e) x (Store.mutate scope id payload fn) res y := by
  unfold Store.mutate at h ⊢
  refine .guard h (fun _ h => ?_)
  obtain ⟨_, _, _, _, ws, hinsert, h⟩ := h.sql
  obtain ⟨hex₁, hws⟩ := hinsert.insertRequest
  have hx₁ := hinsert.owns hx hex₁.owned
  refine .sql hx hex₁ h ?_
  obtain ⟨_, _, _, row, _, hlock, h⟩ := h.sql
  cases row with
  | none => exact absurd h not_amid_fail
  | some v =>
      obtain ⟨old, response⟩ := v
      obtain ⟨hex₂, rfl, hl⟩ := hlock.lockRequest
      have hx₂ := hlock.owns hx₁ hex₂.owned
      refine .sql hx₁ hex₂ h (.guard h (fun _ h => ?_))
      cases response with
      | some r =>
          obtain ⟨rfl, rfl⟩ := amid_done.mp h
          exact .done _ hx₂
      | none =>
          have hlight : x.Light := by simp [Point.Light, hnew]
          obtain ⟨result, z, hbody, h⟩ := h.bind
          have hred := hfn hbody hx₂ (.after (.after hlight (fun w hw => .inl (hws w hw)))
            (fun w hw => absurd hw List.not_mem_nil))
          refine hred.bind h ?_
          obtain ⟨_, _, _, _, _, hset, h⟩ := h.sql
          have hex₃ := hset.setResponse hred.owns ((hbody.env hx₂.tidy).1 hl)
          refine .sql hred.owns hex₃ h ?_
          obtain ⟨rfl, rfl⟩ := amid_done.mp h
          exact .done _ (hset.owns hred.owns hex₃.owned)

theorem rpc_redone {s : Store} {m : Method} {r : Request} {res : Response}
    (h : Amid (Oracle.Within b e) x (s.rpc m r) res y) (hx : x.Owns) (hnew : x.writes = []) :
    Redone (Oracle.Within b e) x (s.rpc m r) res y :=
  .guard h (fun _ h => mutate_redone rpcBody_redone h hx hnew)

theorem action_redone {id requestID : String} {a : Action} {res : Response}
    (h : Amid (Oracle.Within b e) x (Store.action id a requestID) res y) (hx : x.Owns)
    (hnew : x.writes = []) : Redone (Oracle.Within b e) x (Store.action id a requestID) res y :=
  mutate_redone (fun h hx _ => actionBody_redone h hx) h hx hnew

end Mutate

end Rungrid
