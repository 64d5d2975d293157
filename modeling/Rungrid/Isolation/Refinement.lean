-- SUMMARY: Every interleaving of transactions leaves what some run of atomic calls in commit order leaves.
import Rungrid.Isolation.Batches
import Rungrid.Isolation.Deadlock

/-!
# Interleavings refine atomic runs

The rest of the development executes a transaction in one step. Here this is
justified: whatever statements of whatever transactions interleave, the committed
transactions could have been executed one after the other, in the order of their
commits, each with clock readings from its own time. The committed database is the
one this run leaves, but for the numbers of the events, and every caller was given
the answer of this run, but for the rows `Submit` read without locking them.
-/

namespace Rungrid

/-! ## Atomic runs -/

/-- Answers that agree in all but what `Submit` reads of rows it has not locked. -/
def Result.Agrees : Result → Result → Prop
  | .rows xs, .rows ys => JobRow.definitions xs = JobRow.definitions ys
  | r, r' => r = r'

theorem Result.Agrees.refl (r : Result) : r.Agrees r := by
  cases r <;> exact rfl

section

variable [Sha256]

/-- The committed transactions executed as atomic calls, in the order of the log. -/
inductive Serial (db : Db) : List Commit → Db → Prop where
  | start : Serial db [] db
  | commit {cs : List Commit} {c : Commit} {A A' : Db} {o : Nat → Oracle} {r : Result} :
      Serial db cs A → (∀ n, (o n).Within c.began c.ended) →
      perform ⟨c.server, c.op, o⟩ A = (.ok r, A') → r.Agrees c.result → A'.Same c.db →
      Serial db (cs ++ [c]) A'

theorem Serial.reachable {db A : Db} {cs : List Commit} (h : Serial db cs A) (hdb : Reachable db) :
    Reachable A := by
  induction h with
  | start => exact hdb
  | @commit cs c A A' o r _ _ hrun _ _ ih =>
      have hnext := ih.perform ⟨c.server, c.op, o⟩
      rwa [hrun] at hnext

/-! ## Operations -/

/-- Every operation can be redone at once when it commits. -/
theorem op_replays {b e : Time} {x y : Point} {s : Store} {op : Op} {r : Result}
    (h : Amid (Oracle.Within b e) x (op.prog s) r y) (hx : x.Owns) (hnew : x.writes = []) :
    y.Owns ∧ ∀ {Z : Db}, Env y.locks y.db Z → ∃ r', r'.Agrees r ∧
      Replays (Oracle.Within b e) (op.prog s) (Z.applyAll x.writes) r' (Z.applyAll y.writes) := by
  have hexact : ∀ {α : Type} {p : Prog α} {f : α → Result} {a : α},
      Redone (Oracle.Within b e) x p a y →
      y.Owns ∧ ∀ {Z : Db}, Env y.locks y.db Z → ∃ r', r'.Agrees (f a) ∧
        Replays (Oracle.Within b e) (p >>= fun a => .done (f a)) (Z.applyAll x.writes) r'
          (Z.applyAll y.writes) := by
    intro α p f a hred
    exact ⟨hred.owns, fun hZ => ⟨f a, .refl _, (hred.replays hZ).bind (.done _ _)⟩⟩
  cases op with
  | submit jobs =>
      obtain ⟨rows, m, hsubmit, h⟩ := Amid.bind h
      obtain ⟨rfl, rfl⟩ := amid_done.mp h
      obtain ⟨howns, hrep⟩ := submit_replays hsubmit hx
      refine ⟨howns, fun hZ => ?_⟩
      obtain ⟨rows', hrows, hrun⟩ := hrep hZ
      exact ⟨.rows rows', hrows, hrun.bind (.done _ _)⟩
  | rpc m req =>
      obtain ⟨res, z, hbody, h⟩ := Amid.bind h
      obtain ⟨rfl, rfl⟩ := amid_done.mp h
      exact hexact (rpc_redone hbody hx hnew)
  | action id a requestID =>
      obtain ⟨res, z, hbody, h⟩ := Amid.bind h
      obtain ⟨rfl, rfl⟩ := amid_done.mp h
      exact hexact (action_redone hbody hx hnew)
  | reap =>
      obtain ⟨n, z, hbody, h⟩ := Amid.bind h
      obtain ⟨rfl, rfl⟩ := amid_done.mp h
      exact hexact (reap_redone hbody hx hnew)

/-! ## Transactions under way -/

/-- The transaction `t` came from its beginning at `D₀` to its last statement at `D`,
and since then others have taken the committed database to `C`. -/
structure Tx.Came (C : Db) (now : Time) (t : Tx) (D₀ D : Db) : Prop where
  began : t.began ≤ now
  tidy : D₀.Tidy
  env : Env t.locks D C
  snapshot : ∀ S b, t.started = some (S, b) →
    Env t.locks D S ∧ Env t.locks S C ∧ t.began ≤ b ∧ b ≤ now
  /-- However it ends, it ends a run of its whole program. -/
  whole : ∀ {e : Time} {r : Result} {y : Point}, now ≤ e →
    Amid (Oracle.Within t.began e) ⟨t.locks, t.writes, D⟩ t.prog r y →
    Amid (Oracle.Within t.began e) ⟨[], [], D₀⟩ (t.op.prog t.server) r y

namespace Tx.Came

variable {C D₀ D : Db} {now : Time} {t : Tx}

theorem later (h : t.Came C now D₀ D) {now' : Time} (hle : now ≤ now') : t.Came C now' D₀ D :=
  { h with
    began := h.began.trans hle
    snapshot := fun S b hs =>
      have ⟨hD, hS, hb, hnow⟩ := h.snapshot S b hs
      ⟨hD, hS, hb, hnow.trans hle⟩
    whole := fun he => h.whole (hle.trans he) }

/-- Others commit. -/
theorem others (h : t.Came C now D₀ D) {C' : Db} (hC : Env t.locks C C') : t.Came C' now D₀ D :=
  { h with
    env := h.env.trans hC
    snapshot := fun S b hs =>
      have ⟨hD, hS, hb, hnow⟩ := h.snapshot S b hs
      ⟨hD, hS.trans hC, hb, hnow⟩ }

/-- The next statement starts. -/
theorem start (h : t.Came C now D₀ D) :
    ({ t with started := some (C, now) } : Tx).Came C now D₀ D :=
  { h with
    snapshot := fun S b hs => by
      cases hs
      exact ⟨h.env, .refl h.env.tidy, h.began, le_rfl⟩ }

/-- The statement finishes. -/
theorem finish (h : t.Came C now D₀ D) {st : Stmt} {k : st.Result → Prog Result} {S : Db} {b : Time}
    {o : Oracle} {r : st.Result} {ws : List Write} (hprog : t.prog = .exec st k)
    (hstarted : t.started = some (S, b)) (ho : o.Within b now)
    (he : st.eval o (S.applyAll t.writes) (C.applyAll t.writes) = .ok (r, ws)) :
    ({ t with
      prog := k r
      writes := t.writes ++ ws
      locks := t.locks ++ st.takes r ws
      started := none } : Tx).Came C now D₀ C where
  began := h.began
  tidy := h.tidy
  env := .refl h.env.tidy
  snapshot := fun _ _ hs => by cases hs
  whole := fun {e r' y} hle hamid => by
    obtain ⟨hD, hS, hb, -⟩ := h.snapshot S b hstarted
    have hran : Ran (Oracle.Within t.began e) ⟨t.locks, t.writes, D⟩ st o S C r ws :=
      ⟨fun n => ⟨hb.trans (ho n).1, (ho n).2.trans hle⟩, hD, hS, he⟩
    refine h.whole hle ?_
    rw [hprog]
    exact .exec hran hamid

/-- The transaction commits: it made its writes under their guards, and it could be
executed at once now. -/
theorem commit (h : t.Came C now D₀ D) {r : Result} (hprog : t.prog = .done r) :
    Write.AllOwned t.locks C t.writes ∧ ∀ A : Db, A.Same C → ∃ o r' A',
      (∀ n, (o n).Within t.began now) ∧ perform ⟨t.server, t.op, o⟩ A = (.ok r', A') ∧
      r'.Agrees r ∧ A'.Same (C.applyAll t.writes) := by
  have hamid := h.whole (r := r) (y := ⟨t.locks, t.writes, D⟩) le_rfl (by rw [hprog]; exact .done)
  obtain ⟨howns, hrep⟩ := op_replays hamid ⟨h.tidy, trivial⟩ rfl
  refine ⟨(howns.env h.env).owned, fun A hA => ?_⟩
  obtain ⟨r', hagree, hreplay⟩ := hrep h.env
  obtain ⟨A', hruns, hA'⟩ := hreplay A hA
  have hd : Oracle.Within t.began now ⟨fun _ => now, 0, 0, fun _ => false⟩ :=
    fun _ => ⟨h.began, le_rfl⟩
  obtain ⟨o, ho, hrun⟩ := Prog.run_of_runs _ hd hruns
  exact ⟨o, r', A', ho, perform_ok.mpr hrun, hagree, hA'⟩

end Tx.Came

/-! ## Every interleaving -/

namespace World

variable {w w' : World} {db : Db}

/-- The committed transactions have an atomic run, and those under way are on the
way to extend it. -/
structure Refines (db : Db) (w : World) : Prop where
  ordered : w.Ordered
  tidy : w.committed.Tidy
  txs : ∀ i t, w.txs i = some t → ∃ D₀ D, t.Came w.committed w.now D₀ D
  serial : ∃ A, Serial db w.log A ∧ A.Same w.committed

theorem start_refines (hdb : db.WF) (now : Time) : (start db now).Refines db :=
  ⟨start_ordered hdb now, hdb.tidy, fun _ _ h => (by cases h), db, .start, rfl⟩

/-- One step keeps the refinement. -/
theorem Refines.step (h : w.Refines db) (hstep : w.Step w') : w'.Refines db := by
  have hordered := h.ordered.step hstep
  -- A transaction takes its place while the others stay where they are.
  have hset : ∀ {i : Nat} {t : Tx}, (∃ D₀ D, t.Came w.committed w.now D₀ D) →
      ∀ j u, (w.set i (some t)).txs j = some u → ∃ D₀ D, u.Came w.committed w.now D₀ D := by
    intro i t ht j u hj
    rw [set_txs] at hj
    split at hj
    · cases hj
      exact ht
    · exact h.txs j u hj
  cases hstep with
  | tick hle =>
      refine ⟨hordered, h.tidy, fun i t ht => ?_, h.serial⟩
      obtain ⟨D₀, D, hcame⟩ := h.txs i t ht
      exact ⟨D₀, D, hcame.later hle⟩
  | @begin i s op hnone =>
      refine ⟨hordered, h.tidy, hset ⟨w.committed, w.committed, ?_⟩, h.serial⟩
      exact ⟨le_rfl, h.tidy, .refl h.tidy, fun _ _ hs => (by cases hs), fun _ hamid => hamid⟩
  | @start i t st k ht hprog hstarted =>
      obtain ⟨D₀, D, hcame⟩ := h.txs i t ht
      exact ⟨hordered, h.tidy, hset ⟨D₀, D, hcame.start⟩, h.serial⟩
  | @finish i t st k snap b o r ws n ht hprog hstarted hclock he hfree hids hle =>
      obtain ⟨D₀, D, hcame⟩ := h.txs i t ht
      exact ⟨hordered, h.tidy, hset ⟨D₀, _, hcame.finish hprog hstarted hclock he⟩, h.serial⟩
  | @commit i t r ht hprog =>
      obtain ⟨D₀, D, hcame⟩ := h.txs i t ht
      obtain ⟨howned, hexec⟩ := hcame.commit hprog
      refine ⟨hordered, h.tidy.applyAll howned, fun j u hj => ?_, ?_⟩
      · have hj' : (w.set i none).txs j = some u := hj
        rw [set_txs] at hj'
        split at hj'
        · cases hj'
        · rename_i hji
          obtain ⟨E₀, E, hu⟩ := h.txs j u hj'
          have hfree := h.ordered.disjoint ht hj' (Ne.symm hji)
          exact ⟨E₀, E, hu.others (.of_commit h.tidy howned hfree)⟩
      · obtain ⟨A, hserial, hA⟩ := h.serial
        obtain ⟨o, r', A', ho, hrun, hagree, hA'⟩ := hexec A hA
        exact ⟨A', .commit hserial ho hrun hagree hA', hA'⟩
  | @abort i t ht =>
      refine ⟨hordered, h.tidy, fun j u hj => h.txs j u ?_, h.serial⟩
      rw [set_txs] at hj
      split at hj
      · cases hj
      · exact hj

/-- Every interleaving keeps the refinement. -/
theorem Refines.steps (h : w.Refines db) (hrun : w.Steps w') : w'.Refines db := by
  induction hrun with
  | refl => exact h
  | tail _ hstep ih => exact ih.step hstep

end World

end

/-! ## One transaction overtakes another -/

section Overtaking

/-- What a transaction that is done answers. -/
def Tx.answer (t : Tx) : Option Result :=
  match t.prog with
  | .done r => some r
  | _ => none

theorem Tx.answer_done {t : Tx} {r : Result} (h : t.answer = some r) : t.prog = .done r := by
  unfold answer at h
  split at h
  · rename_i hprog
    cases h
    exact hprog
  · cases h

variable [Sha256]

/-- The second transaction begins and commits while the first one is under way. -/
theorem World.overtaken_steps {db : Db} {now : Time} {s : Store} {a b : Op} {o o' o'' : Nat → Oracle}
    {m n k : Nat} {t t' u : Tx} {r r' : Result} (ho : ∀ n, (o n).Within now now)
    (ho' : ∀ n, (o' n).Within now now) (ho'' : ∀ n, (o'' n).Within now now)
    (ht : (Tx.first s a now).advance db o m = some t)
    (hu : (Tx.first s b now).advance db o' n = some u) (hr : u.answer = some r)
    (hlocks : ∀ l ∈ u.locks, l ∉ t.locks)
    (ht' : t.advance (db.applyAll u.writes) o'' k = some t') (hr' : t'.answer = some r') :
    ∃ w, (World.start db now).Steps w ∧
      w.committed = (db.applyAll u.writes).applyAll t'.writes ∧
      w.log.map (fun c => (c.op, c.result)) = [(b, r), (a, r')] := by
  -- The first one runs up to `t`.
  let w₀ := start db now
  have h₁ : w₀.Step (w₀.set 0 (some (Tx.first s a now))) := .begin rfl
  have h₂ := advance_steps (w := w₀.set 0 (some (Tx.first s a now))) (by rw [set_txs, if_pos rfl])
    rfl ho ht (fun l _ => free_set (fun j x _ hx => by cases hx))
  rw [set_set] at h₂
  -- The second one runs to its end and commits.
  let w₁ := w₀.set 0 (some t)
  have h₃ : w₁.Step (w₁.set 1 (some (Tx.first s b now))) :=
    .begin (by rw [set_txs, if_neg (by decide)]; rfl)
  have h₄ := advance_steps (w := w₁.set 1 (some (Tx.first s b now))) (by rw [set_txs, if_pos rfl])
    rfl ho' hu (fun l hl => free_set (fun j x hj hx => by
      rw [set_txs] at hx
      split at hx
      · cases hx
        exact hlocks l hl
      · cases hx))
  rw [set_set] at h₄
  have h₅ := Step.commit (w := w₁.set 1 (some u)) (by rw [set_txs, if_pos rfl]) (Tx.answer_done hr)
  rw [set_set] at h₅
  -- The first one goes on over what the second one committed.
  let w₂ : World := { w₁.set 1 none with
    committed := db.applyAll u.writes
    log := [⟨u.server, u.op, u.began, now, r, db.applyAll u.writes⟩] }
  have hfirst : w₂.txs 0 = some t := by
    change (w₁.set 1 none).txs 0 = some t
    rw [set_txs, if_neg (by decide), set_txs, if_pos rfl]
  have hother : ∀ j x, j ≠ 0 → w₂.txs j = some x → False := by
    intro j x hj hx
    change (w₁.set 1 none).txs j = some x at hx
    rw [set_txs, set_txs, if_neg hj] at hx
    split at hx <;> cases hx
  have h₆ := advance_steps hfirst (Tx.advance_idle ht rfl) ho'' ht'
    (fun l _ j x hj hx => absurd hx (fun hx => hother j x hj hx))
  have h₇ := Step.commit (w := w₂.set 0 (some t')) (by rw [set_txs, if_pos rfl]) (Tx.answer_done hr')
  refine ⟨_, (((((Relation.ReflTransGen.single h₁).trans h₂).tail h₃).trans h₄).tail h₅
    |>.trans h₆).tail h₇, rfl, ?_⟩
  have hb : u.op = b := Tx.advance_op hu
  have ha : t'.op = a := (Tx.advance_op ht').trans (Tx.advance_op ht)
  simp [w₂, World.set, ha, hb]

end Overtaking

namespace Sample

/-- The registration of a second worker, and a heartbeat of the first one. -/
def joins : Op := .rpc .registerWorker rivalRegister

def beats : Op := .rpc .heartbeat { register with requestID := "4" }

/-- The heartbeat is complete before the registration has inserted its worker. -/
theorem joins_overtaken :
    ((@Tx.first digest server joins 9000).advance leasedDb steady 2).any (fun t =>
      ((@Tx.first digest server beats 9000).advance leasedDb others 5).any (fun u =>
        u.answer == some (.response .alive) && u.locks.all (fun l => l ∉ t.locks) &&
          (t.advance (leasedDb.applyAll u.writes) steady 3).any (fun t' =>
            t'.answer == some (.response .registered) &&
              decide (((leasedDb.applyAll u.writes).applyAll t'.writes).jobs = [jobRow])))) = true := by
  decide +kernel

/-- So they can be committed in this order. -/
theorem joins_interleave : ∃ w, @World.Steps digest (World.start leasedDb 9000) w ∧
    w.committed.jobs = [jobRow] ∧ w.log.map (fun c => (c.op, c.result)) =
      [(beats, .response .alive), (joins, .response .registered)] := by
  have h := joins_overtaken
  simp only [Option.any_eq_true, Bool.and_eq_true, beq_iff_eq, List.all_eq_true,
    decide_eq_true_eq] at h
  obtain ⟨t, ht, u, hu, ⟨hr, hlocks⟩, t', ht', hr', hjobs⟩ := h
  obtain ⟨w, hrun, hdb, hlog⟩ := @World.overtaken_steps digest _ _ _ _ _ _ _ _ _ _ _ _ _ _ _ _
    steady_within (fun n => steady_within (n + 100)) steady_within ht hu hr hlocks ht' hr'
  exact ⟨w, hrun, hdb ▸ hjobs, hlog⟩

end Sample

/-! ## The results -/

/-- The committed transactions of an interleaving from a reachable database are an
atomic run in commit order: it leaves the committed database but for the numbers of
the events, and every transaction answers as it answered. -/
theorem interleavings_serial [Sha256] (db : Db) (hdb : Reachable db) (now : Time) (w : World)
    (hrun : (World.start db now).Steps w) :
    ∃ A, Serial db w.log A ∧ Reachable A ∧ A.Same w.committed := by
  obtain ⟨A, hserial, hA⟩ := ((World.start_refines hdb.conserved.1.wf now).steps hrun).serial
  exact ⟨A, hserial, hserial.reachable hdb, hA⟩

theorem interleavings_serial_overtaken : ∃ (w : World) (A : Db),
    @Serial Sample.digest Sample.leasedDb w.log A ∧ A.Same w.committed ∧
    w.log.map (fun c => (c.op, c.result)) =
      [(Sample.beats, .response .alive), (Sample.joins, .response .registered)] := by
  obtain ⟨w, hrun, -, hlog⟩ := Sample.joins_interleave
  obtain ⟨A, hserial, -, hA⟩ := @interleavings_serial Sample.digest Sample.leasedDb
    Sample.leased_reachable 9000 w hrun
  exact ⟨w, A, hserial, hA, hlog⟩

/-- What a job and its attempts agree on does not depend on the events. -/
theorem Db.Same.jobCoherent {A X : Db} {j : JobRec} (h : A.Same X) (hj : A.JobCoherent j) :
    X.JobCoherent j := by
  obtain ⟨jobs, workers, attempts, artifacts, events, requests⟩ := A
  obtain ⟨jobs', workers', attempts', artifacts', events', requests'⟩ := X
  simp only [Db.Same, Db.unnumbered, Db.mk.injEq] at h
  obtain ⟨rfl, rfl, rfl, rfl, -, rfl⟩ := h
  exact ⟨hj.active_iff, hj.active, hj.succeeded, hj.only_succeeded, hj.failed, hj.queued, hj.past⟩

theorem Db.Same.tables {A X : Db} (h : A.Same X) : A.tables = X.tables := by
  simp only [Db.Same, Db.unnumbered, Db.mk.injEq] at h
  simp only [Db.tables, h]

/-- In every committed database of an interleaving each job agrees with its attempts and
keeps its budget, and no worker is given more than it has. -/
theorem interleavings_safe [Sha256] (db : Db) (hdb : Reachable db) (now : Time) (w : World)
    (hrun : (World.start db now).Steps w) :
    (∀ j ∈ w.committed.jobs, w.committed.JobCoherent j ∧
      ((w.committed.attemptsOf j.id).length : Int) ≤ j.maxAttempts) ∧
    ∀ v ∈ w.committed.workers, (w.committed.used v.id).Le v.capacity := by
  obtain ⟨A, hserial, hA⟩ := ((World.start_refines hdb.conserved.1.wf now).steps hrun).serial
  have hreach := hserial.reachable hdb
  obtain ⟨hsound, hlogged⟩ := hreach.logged
  have hbudget : ∀ j ∈ A.tables.jobs, ((A.tables.attemptsOf j.id).length : Int) ≤ j.maxAttempts := by
    intro j hj
    have hcoh := (hlogged.coherent hsound.wf (show j ∈ A.jobs from hj)).budget
    simp only [Db.view, List.length_map] at hcoh
    exact hcoh
  have hjobs : ∀ j ∈ A.tables.jobs, A.JobCoherent j := fun j hj =>
    Db.jobCoherent (hlogged.coherent hsound.wf hj)
  have hworkers : ∀ v ∈ A.tables.workers, (A.tables.used v.id).Le v.capacity := hreach.conserved.2
  rw [hA.tables] at hjobs hbudget hworkers
  exact ⟨fun j hj => ⟨hA.jobCoherent (hjobs j hj), hbudget j hj⟩, hworkers⟩

theorem interleavings_safe_overtaken : ∃ w : World, w.log.length = 2 ∧
    w.committed.JobCoherent Sample.jobRow := by
  obtain ⟨w, hrun, hjobs, hlog⟩ := Sample.joins_interleave
  have hlength := congrArg List.length hlog
  rw [List.length_map] at hlength
  have hsafe := (@interleavings_safe Sample.digest Sample.leasedDb Sample.leased_reachable 9000 w
    hrun).1 Sample.jobRow (by simp [hjobs])
  exact ⟨w, hlength, hsafe.1⟩

end Rungrid
