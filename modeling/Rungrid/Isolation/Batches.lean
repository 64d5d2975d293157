-- SUMMARY: Submit and Reap amid commits: the state they leave can be reached at once when they commit.
import Rungrid.Isolation.Bodies
import Rungrid.Lifecycle.Reaping

/-!
# Batches amid commits

`Submit` and `Reap` work through a list, and both read rows that they have not
locked. `Submit` returns the row of a key it did not insert, which other
transactions may be changing; what it compares, the definition, never changes. So a
submission is redone with the same effect, and with rows that have the same
definitions. `Reap` selects its candidates by a snapshot and finds with its second
query that some of them have been renewed in the meantime. It is redone as a reaper
that passes over just these.
-/

namespace Rungrid

open Prog (sql)

variable {b e : Time} {x y : Point}

/-- An exact statement at the time of the commit, and what follows it there. -/
theorem Ran.Exact.replays {α β : Type} {P : Oracle → Prop} {st : Stmt} {o : Oracle} {S C Z Y : Db}
    {r : st.Result} {ws : List Write} {p : Prog α} {a : α} {f : st.Result → Prog β} {c : β}
    {hs : Ran P x st o S C r ws} (hex : hs.Exact) (hx : x.Owns)
    (h : Amid P (x.after C st r ws) p a y) (hZ : Env y.locks y.db Z)
    (hf : Replays P (f r) (Z.applyAll (x.writes ++ ws)) c Y) :
    Replays P (sql st >>= f) (Z.applyAll x.writes) c Y := by
  rw [Db.applyAll_append] at hf
  exact .sql (hex.redo (h.view (hs.owns hx hex.owned) hZ)) hf

/-! ## Submit -/

section Submit

theorem lockKeys_redone {keys : List String} {u : Unit}
    (h : Amid (Oracle.Within b e) x (Store.lockKeys keys) u y) (hx : x.Owns) :
    Redone (Oracle.Within b e) x (Store.lockKeys keys) u y ∧ y.writes = x.writes ∧
      ∀ key ∈ keys, .advisory key ∈ y.locks := by
  induction keys generalizing x with
  | nil =>
      obtain ⟨rfl, rfl⟩ := amid_done.mp h
      exact ⟨.done _ hx, rfl, List.forall_mem_nil _⟩
  | cons key keys ih =>
      rw [Store.lockKeys] at h ⊢
      obtain ⟨_, _, _, _, ws, hlock, h⟩ := h.sql
      obtain ⟨hex, hl⟩ := hlock.lockKey
      obtain rfl : ws = [] := by
        have he := hlock.eval
        simp only [Stmt.eval] at he
        split at he <;> cases he
        rfl
      have hx₁ := hlock.owns hx hex.owned
      obtain ⟨hrest, hwrites, hkeys⟩ := ih h hx₁
      refine ⟨.sql hx hex h hrest, hwrites.trans (List.append_nil _), ?_⟩
      rintro k (_ | ⟨_, hk⟩)
      · exact (h.env hx₁.tidy).1 hl
      · exact hkeys k hk

/-- What the rows of an answer say that no transaction changes. -/
def JobRow.definitions (rows : List JobRow) : List Job := rows.map JobRow.definition

/-- Whoever inserts a job holds its row. -/
theorem Ran.insertJob_locks {id : Uuid} {j : Job} {inserted : Bool} {o : Oracle} {S C : Db}
    {ws : List Write} (_ : Ran (Oracle.Within b e) x (.insertJob id j) o S C inserted ws)
    (hi : inserted = true)
    (hws : (inserted = false ∧ ws = []) ∨ (inserted = true ∧ ws = [.insertJob (j.newRow id o)])) :
    .job id ∈ x.locks ++ (Stmt.insertJob id j).takes inserted ws := by
  rcases hws with ⟨hfalse, -⟩ | ⟨-, rfl⟩
  · rw [hi] at hfalse
    cases hfalse
  · simp [Stmt.takes, Write.locks, Job.newRow]

/-- The row of a key when the transaction commits has the definition it had when it was read. -/
theorem Ran.jobByKey {α : Type} {key : String} {row : JobRow} {o : Oracle} {S C Z : Db}
    {ws : List Write} {p : Prog α} {a : α}
    (hs : Ran (Oracle.Within b e) x (.jobByKey key) o S C (some row) ws) (hx : x.Owns)
    (h : Amid (Oracle.Within b e) (x.after C (.jobByKey key) (some row) ws) p a y)
    (hZ : Env y.locks y.db Z) :
    ws = [] ∧ ∃ row', (Stmt.jobByKey key).Redo (Oracle.Within b e) (Z.applyAll x.writes) (some row') [] ∧
      row'.definition = row.definition := by
  have he := hs.eval
  simp only [Stmt.eval, Except.ok.injEq, Prod.mk.injEq] at he
  obtain ⟨hrow, rfl⟩ := he
  obtain ⟨j, hj, rfl⟩ := Option.map_eq_some_iff.mp hrow
  obtain ⟨j₁, hj₁, hdef₁⟩ := (hs.waitView hx).key hj
  obtain ⟨j₂, hj₂, hdef₂⟩ := (h.view (hs.owns hx trivial) hZ).key hj₁
  refine ⟨rfl, j₂.row, ⟨o, [], hs.oracle, ?_, rfl⟩, hdef₂.trans hdef₁⟩
  simp only [Stmt.eval, hj₂, Option.map_some]

/-- The event of a new job, under the lock of its row. -/
theorem submitted_replays {id : Uuid} {inserted : Bool} {p : Prog (List JobRow)}
    {rows : List JobRow}
    (h : Amid (Oracle.Within b e) x (if inserted = true then
      Store.event id none .submitted .empty >>= fun _ => p else p) rows y)
    (hx : x.Owns) (hl : inserted = true → .job id ∈ x.locks) :
    ∃ m : Point, m.Owns ∧ x.locks ⊆ m.locks ∧ Amid (Oracle.Within b e) m p rows y ∧
      ∀ {Z : Db}, Env y.locks y.db Z → ∀ {q : Prog (List JobRow)} {rows' : List JobRow},
        Replays (Oracle.Within b e) q (Z.applyAll m.writes) rows' (Z.applyAll y.writes) →
        Replays (Oracle.Within b e) (if inserted = true then
          Store.event id none .submitted .empty >>= fun _ => q else q) (Z.applyAll x.writes) rows'
          (Z.applyAll y.writes) := by
  cases inserted with
  | false => exact ⟨x, hx, fun _ hmem => hmem, h, fun _ _ _ hq => hq⟩
  | true =>
      rw [if_pos rfl, Store.event] at h
      obtain ⟨_, _, _, _, _, hevent, h⟩ := h.sql
      obtain ⟨hex, -⟩ := hevent.insertEvent (hl rfl)
      refine ⟨_, hevent.owns hx hex.owned, hevent.locks_subset, h, fun hZ _ _ hq => ?_⟩
      rw [if_pos rfl]
      exact hex.replays hx h hZ hq

/-- The loop over the batch, under the advisory locks of its keys. -/
theorem submitLoop_replays {js : List Job} {out rows : List JobRow}
    (h : Amid (Oracle.Within b e) x (Store.submitLoop js out) rows y) (hx : x.Owns)
    (hvalid : ∀ j ∈ js, j.Valid) (hkeys : ∀ j ∈ js, .advisory j.idempotencyKey ∈ x.locks) :
    y.Owns ∧ ∀ {Z : Db}, Env y.locks y.db Z → ∀ out' : List JobRow,
      JobRow.definitions out' = JobRow.definitions out →
      ∃ rows', JobRow.definitions rows' = JobRow.definitions rows ∧
        Replays (Oracle.Within b e) (Store.submitLoop js out') (Z.applyAll x.writes) rows'
          (Z.applyAll y.writes) := by
  induction js generalizing x out with
  | nil =>
      obtain ⟨rfl, rfl⟩ := amid_done.mp h
      exact ⟨hx, fun _ _ hout => ⟨_, hout, .done _ _⟩⟩
  | cons j js ih =>
      rw [Store.submitLoop] at h
      obtain ⟨o₁, S₁, C₁, id, ws₁, hid, h₁⟩ := h.sql
      obtain ⟨hex₁, rfl⟩ := hid.newID
      have hx₁ := hid.owns hx hex₁.owned
      obtain ⟨o₂, S₂, C₂, inserted, ws₂, hinsert, h₂⟩ := h₁.sql
      obtain ⟨hex₂, hins⟩ := hinsert.insertJob (hvalid j List.mem_cons_self)
        (hid.locks_subset (hkeys j List.mem_cons_self))
      have hx₂ := hinsert.owns hx₁ hex₂.owned
      obtain ⟨o₃, S₃, C₃, found, ws₃, hread, h₃⟩ := h₂.sql
      cases found with
      | none => exact absurd h₃ not_amid_fail
      | some row =>
          obtain rfl : ws₃ = [] := by
            have he := hread.eval
            simp only [Stmt.eval, Except.ok.injEq, Prod.mk.injEq] at he
            exact he.2.symm
          have hx₃ := hread.owns hx₂ trivial
          simp only at h₃
          split at h₃
          · exact absurd h₃ not_amid_fail
          rename_i hdef
          obtain ⟨m, hm, hsub, hrest, htail⟩ := submitted_replays h₃ hx₃
            (fun hi => hread.locks_subset (hinsert.insertJob_locks hi hins))
          obtain ⟨howns, hloop⟩ := ih hrest hm (fun i hi => hvalid i (List.mem_cons_of_mem j hi))
            (fun i hi => hsub (hread.locks_subset (hinsert.locks_subset (hid.locks_subset
              (hkeys i (List.mem_cons_of_mem j hi))))))
          refine ⟨howns, fun {Z} hZ out' hout => ?_⟩
          obtain ⟨-, row', hredo, hrow⟩ := hread.jobByKey hx₂ h₃ hZ
          obtain ⟨rows', hrows, hrep⟩ := hloop hZ (out' ++ [row'])
            (by simp only [JobRow.definitions, List.map_append, List.map_cons, List.map_nil, hrow] at hout ⊢
                rw [hout])
          refine ⟨rows', hrows, ?_⟩
          rw [Store.submitLoop]
          refine hex₁.replays hx h₁ hZ (hex₂.replays hx₁ h₂ hZ (.sql hredo ?_))
          have hsame : ¬ row'.definition.marshal ≠ j.marshal := by rwa [hrow]
          simp only [if_neg hsame]
          have hdone := htail hZ hrep
          simp only [Point.after, List.append_nil] at hdone ⊢
          exact hdone

theorem submit_replays {jobs : List Job} {rows : List JobRow}
    (h : Amid (Oracle.Within b e) x (Store.submit jobs) rows y) (hx : x.Owns) :
    y.Owns ∧ ∀ {Z : Db}, Env y.locks y.db Z →
      ∃ rows', JobRow.definitions rows' = JobRow.definitions rows ∧
        Replays (Oracle.Within b e) (Store.submit jobs) (Z.applyAll x.writes) rows'
          (Z.applyAll y.writes) := by
  unfold Store.submit at h ⊢
  split at h
  · exact absurd h not_amid_fail
  rename_i hlength
  simp only [if_neg hlength]
  cases hvalid : jobs.findSome? Job.validate with
  | some err =>
      rw [hvalid] at h
      exact absurd h not_amid_fail
  | none =>
      rw [hvalid] at h
      simp only at h ⊢
      obtain ⟨_, z, hlock, h⟩ := h.bind
      obtain ⟨hred, hwrites, hkeys⟩ := lockKeys_redone hlock hx
      obtain ⟨howns, hloop⟩ := submitLoop_replays h hred.owns
        (fun j hj => List.findSome?_eq_none_iff.mp hvalid j hj)
        (fun j hj => hkeys _ (List.mem_insertionSort _ |>.mpr (List.mem_map_of_mem hj)))
      refine ⟨howns, fun {Z} hZ => ?_⟩
      obtain ⟨rows', hrows, hrep⟩ := hloop hZ [] rfl
      obtain ⟨hsub, henv⟩ := h.env hred.owns.tidy
      exact ⟨rows', hrows, (hred.replays (henv.trans (hZ.mono hsub))).bind hrep⟩

end Submit

/-! ## Reap -/

section Reap

theorem Db.reapOrder_sorted (X : Db) (clock : Nat → Time) :
    ((X.reapOrder clock).map JobRec.id).Pairwise Uuid.le := by
  have htotal : Std.Total (fun a b : JobRec => a.id.le b.id) := ⟨fun a b => Std.Total.total _ _⟩
  have htrans : IsTrans JobRec (fun a b : JobRec => a.id.le b.id) :=
    ⟨fun a b c => IsTrans.trans (r := Uuid.le) _ _ _⟩
  exact List.pairwise_map.mpr (List.pairwise_insertionSort _ _)

theorem Db.Tidy.reapOrder_nodup {X : Db} (hX : X.Tidy) (clock : Nat → Time) :
    ((X.reapOrder clock).map JobRec.id).Nodup := by
  have htables : X.tables.WF := hX
  have hjobs : (X.jobs.map JobRec.id).Nodup := htables.jobs
  have hsub := (List.filter_sublist (p := fun p : JobRec × Nat => X.reapable p.1 (clock p.2))
    (l := X.jobs.zipIdx)).map Prod.fst
  rw [List.zipIdx_map_fst] at hsub
  have hperm := (List.perm_insertionSort (fun a b : JobRec => a.id.le b.id)
    ((X.jobs.zipIdx.filter (fun p => X.reapable p.1 (clock p.2))).map Prod.fst)).map JobRec.id
  exact hperm.nodup_iff.mpr (hjobs.sublist (hsub.map JobRec.id))

theorem Db.mem_reapOrder {X : Db} {j : JobRec} :
    j ∈ X.reapOrder (fun _ => e) ↔ j ∈ X.jobs ∧ X.reapable j e = true := by
  rw [reapOrder, List.mem_insertionSort, List.mem_map]
  constructor
  · rintro ⟨⟨j, i⟩, hji, rfl⟩
    obtain ⟨hmem, hcond⟩ := List.mem_filter.mp hji
    exact ⟨List.mem_of_getElem? (List.mem_zipIdx_iff_getElem?.mp hmem), hcond⟩
  · rintro ⟨hj, hcond⟩
    obtain ⟨i, hi⟩ := List.mem_iff_getElem?.mp hj
    exact ⟨(j, i), List.mem_filter.mpr ⟨List.mem_zipIdx_iff_getElem?.mpr hi, hcond⟩, rfl⟩

/-- With the other jobs passed over, the reaper selects the jobs `ids`. -/
theorem Db.Tidy.reapOrder_pick {X : Db} (hX : X.Tidy) {ids : List Uuid}
    (hsorted : ids.Pairwise Uuid.le) (hnodup : ids.Nodup) (hlength : ids.length ≤ reapLimit)
    (hreap : ∀ id ∈ ids, ∃ j, X.job? id = some j ∧ X.reapable j e = true) :
    (((X.reapOrder (fun _ => e)).filter (fun j => !decide (j.id ∉ ids) &&
      (X.job? j.id).any (·.state.active))).take reapLimit).map JobRec.id = ids := by
  have hpick : ((X.reapOrder (fun _ => e)).filter (fun j => !decide (j.id ∉ ids) &&
      (X.job? j.id).any (·.state.active))).map JobRec.id = ids := by
    have hsub := (List.filter_sublist (p := fun j : JobRec => !decide (j.id ∉ ids) &&
      (X.job? j.id).any (·.state.active)) (l := X.reapOrder (fun _ => e))).map JobRec.id
    refine List.Perm.eq_of_pairwise' (r := Uuid.le) ((X.reapOrder_sorted _).sublist hsub) hsorted
      ((List.perm_ext_iff_of_nodup ((hX.reapOrder_nodup _).sublist hsub) hnodup).mpr fun id => ?_)
    constructor
    · intro hid
      obtain ⟨j, hj, rfl⟩ := List.mem_map.mp hid
      have hcond := (List.mem_filter.mp hj).2
      simp only [Bool.and_eq_true, Bool.not_eq_true', decide_eq_false_iff_not, not_not] at hcond
      exact hcond.1
    · intro hid
      obtain ⟨j, hj, hcond⟩ := hreap id hid
      obtain rfl := job?_id hj
      have hactive : j.state.active = true := (Bool.and_eq_true_iff.mp hcond).1
      refine List.mem_map_of_mem (List.mem_filter.mpr ⟨mem_reapOrder.mpr ⟨mem_of_job? hj, hcond⟩, ?_⟩)
      simp [hid, hj, hactive]
  rw [List.map_take, hpick, List.take_of_length_le hlength]

/-- The writes are made under other jobs. -/
def Write.Apart (id : Uuid) (ws : List Write) : Prop := ∀ w ∈ ws, .job id ∉ w.guards

theorem Write.Apart.append {id : Uuid} {ws vs : List Write} (h : Apart id ws) (h' : Apart id vs) :
    Apart id (ws ++ vs) := by
  intro w hw
  rcases List.mem_append.mp hw with hw | hw
  · exact h w hw
  · exact h' w hw

/-- Writes under other jobs leave the job and its attempts as they are. -/
theorem Write.Apart.rely {id : Uuid} {ws : List Write} {L : List Lock} {X : Db} (h : Apart id ws)
    (hX : X.Tidy) (hws : AllOwned L X ws) : Rely [.job id] X (X.applyAll ws) := by
  induction ws generalizing X with
  | nil => exact .refl _ X
  | cons w ws ih =>
      have hfree : ∀ l ∈ w.guards, l ∉ [Lock.job id] := fun l hl hmem =>
        h w List.mem_cons_self (List.mem_singleton.mp hmem ▸ hl)
      have hone : Rely [.job id] X (X.apply w) := .of_write hX hws.1.fits hfree
      exact hone.trans (ih (fun v hv => h v (List.mem_cons_of_mem w hv)) (hX.apply hws.1.fits) hws.2)

section Writes

variable {P : Oracle → Prop} {o : Oracle} {S C : Db} {ws : List Write} {id i : Uuid}

theorem Ran.expireAttempt_apart {attemptID : Uuid} {a : AttemptRec}
    (hs : Ran P x (.expireAttempt attemptID) o S C () ws) (hx : x.Owns)
    (ha : x.view.attempt? attemptID = some a) (hl : .job a.jobID ∈ x.locks) (hi : i ≠ a.jobID) :
    Write.Apart i ws := by
  obtain ⟨haS, haC⟩ := hs.attempt hx ha hl
  have he := hs.eval
  simp only [Stmt.eval, haS, haC, reread_self, updateRow_some] at he
  cases he
  simp [Write.Apart, Write.guards, AttemptRec.expire, hi]

theorem Ran.setJobState_apart {state : JobState} (hs : Ran P x (.setJobState id state) o S C () ws)
    (hi : i ≠ id) : Write.Apart i ws := by
  have he := hs.eval
  cases he
  intro w hw
  obtain ⟨j, hj, rfl⟩ := Option.map_eq_some_iff.mp (Option.mem_toList.mp hw)
  obtain ⟨-, -, hj⟩ := Option.bind_eq_some_iff.mp hj
  have hid : j.id = id := Db.job?_id hj
  simp [Write.guards, JobRec.setState, hid, hi]

theorem Ran.insertEvent_apart {att : Option Uuid} {kind : EventType} {payload : EventPayload}
    (hs : Ran P x (.insertEvent id att kind payload) o S C () ws) (hi : i ≠ id) :
    Write.Apart i ws := by
  have he := hs.eval
  simp only [Stmt.eval] at he
  (repeat' split at he) <;> cases he
  simp [Write.Apart, Write.guards, Db.newEvent, hi]

end Writes

/-- What the second query of the reaper finds is there while the job is held. -/
theorem Ran.expiredAttempt_some {id attemptID : Uuid} {number max : Int} {o : Oracle} {S C : Db}
    {ws : List Write}
    (hs : Ran (Oracle.Within b e) x (.expiredAttempt id) o S C (some (attemptID, number, max)) ws)
    (hx : x.Owns) (hl : .job id ∈ x.locks) :
    ∃ a, (C.applyAll x.writes).attempt? attemptID = some a ∧ a.jobID = id ∧ a.expiredAt e = true := by
  have he := hs.eval
  simp only [Stmt.eval, Except.ok.injEq, Prod.mk.injEq] at he
  obtain ⟨a, ha, hmax⟩ := Option.bind_eq_some_iff.mp he.1
  obtain ⟨j, -, heq⟩ := Option.map_eq_some_iff.mp hmax
  cases heq
  have hcond := List.find?_some ha
  simp only [Bool.and_eq_true, decide_eq_true_eq] at hcond
  obtain ⟨hjob, hexpired⟩ := hcond
  have hmem : a ∈ (C.applyAll x.writes).attemptsOf id := by
    rw [← hs.attempts hx hl]
    exact Db.mem_attemptsOf.mpr ⟨List.mem_of_find?_eq_some ha, hjob⟩
  refine ⟨a, Db.WF.attempt_of_mem (hs.tidy hx) (Db.mem_attemptsOf.mp hmem).1, hjob, ?_⟩
  simp only [AttemptRec.expiredAt, Bool.and_eq_true, decide_eq_true_eq] at hexpired ⊢
  exact ⟨hexpired.1, hexpired.2.trans (hs.oracle 0).2⟩

/-- The statements that expire one attempt, under the lock of its job. -/
theorem expire_replays {id attemptID : Uuid} {state : JobState} {p : Prog Nat} {m : Nat}
    {a : AttemptRec}
    (h : Amid (Oracle.Within b e) x (sql (.expireAttempt attemptID) >>= fun _ =>
      sql (.setJobState id state) >>= fun _ => Store.event id (some attemptID) .leaseExpired
        (.expired AttemptRec.expiryReason) >>= fun _ => p) m y)
    (hx : x.Owns) (ha : x.view.attempt? attemptID = some a) (hjob : a.jobID = id)
    (hact : a.state.active) (hl : .job id ∈ x.locks) :
    ∃ z : Point, z.Owns ∧ x.locks ⊆ z.locks ∧
      (∀ i, i ≠ id → Write.Apart i x.writes → Write.Apart i z.writes) ∧
      Amid (Oracle.Within b e) z p m y ∧
      ∀ {Z : Db}, Env y.locks y.db Z → ∀ {q : Prog Nat},
        Replays (Oracle.Within b e) q (Z.applyAll z.writes) m (Z.applyAll y.writes) →
        Replays (Oracle.Within b e) (sql (.expireAttempt attemptID) >>= fun _ =>
          sql (.setJobState id state) >>= fun _ => Store.event id (some attemptID) .leaseExpired
            (.expired AttemptRec.expiryReason) >>= fun _ => q) (Z.applyAll x.writes) m
          (Z.applyAll y.writes) := by
  subst hjob
  unfold Store.event at h ⊢
  obtain ⟨_, _, _, _, _, hexpire, h₁⟩ := h.sql
  have hex₁ := hexpire.expireAttempt hx ha hl hact
  have hx₁ := hexpire.owns hx hex₁.owned
  have hl₁ := hexpire.locks_subset hl
  obtain ⟨_, _, _, _, _, hset, h₂⟩ := h₁.sql
  have hex₂ := hset.setJobState hx₁ hl₁
  have hx₂ := hset.owns hx₁ hex₂.owned
  have hl₂ := hset.locks_subset hl₁
  obtain ⟨_, _, _, _, _, hevent, h₃⟩ := h₂.sql
  obtain ⟨hex₃, -⟩ := hevent.insertEvent hl₂
  refine ⟨_, hevent.owns hx₂ hex₃.owned, fun _ hmem => ?_, fun i hi happ => ?_, h₃, fun hZ _ hq => ?_⟩
  · exact hevent.locks_subset (hset.locks_subset (hexpire.locks_subset hmem))
  · exact ((happ.append (hexpire.expireAttempt_apart hx ha hl hi)).append
      (hset.setJobState_apart hi)).append (hevent.insertEvent_apart hi)
  · exact hex₁.replays hx h₁ hZ (hex₂.replays hx₁ h₂ hZ (hex₃.replays hx₂ h₃ hZ hq))

/-- The loop over the candidates passes over those whose lease has been renewed. -/
theorem reapLoop_replays {ids : List Uuid} {n m : Nat}
    (h : Amid (Oracle.Within b e) x (Store.reapLoop ids n) m y) (hx : x.Owns) (hnodup : ids.Nodup)
    (hl : ∀ id ∈ ids, .job id ∈ x.locks) (hapart : ∀ id ∈ ids, Write.Apart id x.writes) :
    y.Owns ∧ ∃ ids', ids'.Sublist ids ∧ ∀ {Z : Db}, Env y.locks y.db Z →
      (∀ id ∈ ids', ∃ a ∈ Z.attempts, a.jobID = id ∧ a.expiredAt e = true) ∧
      Replays (Oracle.Within b e) (Store.reapLoop ids' n) (Z.applyAll x.writes) m
        (Z.applyAll y.writes) := by
  induction ids generalizing x n with
  | nil =>
      obtain ⟨rfl, rfl⟩ := amid_done.mp h
      exact ⟨hx, [], .slnil, fun _ => ⟨List.forall_mem_nil _, .done _ _⟩⟩
  | cons id ids ih =>
      rw [Store.reapLoop] at h
      obtain ⟨hnot, hnodup⟩ := List.nodup_cons.mp hnodup
      obtain ⟨o₁, S₁, C₁, found, ws₁, hread, h₁⟩ := h.sql
      obtain ⟨hex₁, rfl⟩ := hread.expiredAttempt hx (hl id List.mem_cons_self)
      have hx₁ := hread.owns hx hex₁.owned
      have hl₁ : ∀ i ∈ ids, Lock.job i ∈ (x.after C₁ (.expiredAttempt id) found []).locks :=
        fun i hi => hread.locks_subset (hl i (List.mem_cons_of_mem id hi))
      have hapart₁ : ∀ i ∈ id :: ids, Write.Apart i (x.writes ++ []) := fun i hi =>
        (hapart i hi).append (fun w hw => absurd hw List.not_mem_nil)
      cases found with
      | none =>
          obtain ⟨howns, ids', hsub, hloop⟩ := ih h₁ hx₁ hnodup hl₁
            (fun i hi => hapart₁ i (List.mem_cons_of_mem id hi))
          refine ⟨howns, ids', hsub.cons id, fun hZ => ?_⟩
          have hrest := hloop hZ
          simp only [Point.after, List.append_nil] at hrest
          exact hrest
      | some v =>
          obtain ⟨attemptID, number, max⟩ := v
          have hjobs := hl id List.mem_cons_self
          obtain ⟨a, ha, hjob, hexpired⟩ := hread.expiredAttempt_some hx hjobs
          obtain ⟨z, hz, hsub, hkeep, h₂, htail⟩ := expire_replays h₁ hx₁
            (by rw [Point.view_after]; exact ha) hjob (AttemptRec.active_of_expiredAt hexpired)
            (hread.locks_subset hjobs)
          obtain ⟨howns, ids', hsub', hloop⟩ := ih h₂ hz hnodup (fun i hi => hsub (hl₁ i hi))
            (fun i hi => hkeep i (fun heq => hnot (heq ▸ hi)) (hapart₁ i (List.mem_cons_of_mem id hi)))
          refine ⟨howns, id :: ids', hsub'.cons_cons id, fun {Z} hZ => ?_⟩
          obtain ⟨hthere, hrep⟩ := hloop hZ
          -- The own writes so far concern other jobs, so the attempt is in `Z` itself.
          have hview := (h₁.view hx₁ hZ).attemptHeld ha (hread.locks_subset (hjob ▸ hjobs))
          have hZowns := hx.env ((hread.snap.trans hread.wait).trans
            ((h₁.env hx₁.tidy).2.mono hread.locks_subset |>.trans (hZ.mono (fun _ hmem =>
              (h₁.env hx₁.tidy).1 (hread.locks_subset hmem)))))
          have hframe := (hapart id List.mem_cons_self).rely hZowns.tidy hZowns.owned
          have hmem : a ∈ Z.attemptsOf id := by
            rw [← hframe.attemptsHeld List.mem_cons_self]
            exact Db.mem_attemptsOf.mpr ⟨Db.mem_of_attempt? hview, hjob⟩
          refine ⟨?_, ?_⟩
          · rintro i (_ | ⟨_, hi⟩)
            · exact ⟨a, (Db.mem_attemptsOf.mp hmem).1, hjob, hexpired⟩
            · exact hthere i hi
          · rw [Store.reapLoop]
            exact hex₁.replays hx h₁ hZ (htail hZ hrep)

/-- The candidates: at most a hundred jobs in id order, each locked and in an active state. -/
theorem Ran.expiredJobs {P : Oracle → Prop} {o : Oracle} {S C : Db} {ids : List Uuid}
    {ws : List Write} (hs : Ran P x .expiredJobs o S C ids ws) (hx : x.Owns) :
    ws = [] ∧ ids.Pairwise Uuid.le ∧ ids.Nodup ∧ ids.length ≤ reapLimit ∧ ∀ id ∈ ids,
      .job id ∈ x.locks ++ Stmt.expiredJobs.takes ids ws ∧
      ∃ j, (C.applyAll x.writes).job? id = some j ∧ j.state.active = true := by
  have he := hs.eval
  simp only [Stmt.eval, Except.ok.injEq, Prod.mk.injEq] at he
  obtain ⟨rfl, rfl⟩ := he
  have htidy : (S.applyAll x.writes).Tidy := hs.snap.tidy.applyAll (hx.env hs.snap).owned
  have hsub := ((List.take_sublist reapLimit _).trans (List.filter_sublist
    (p := fun j : JobRec => !o.locked j.id && ((C.applyAll x.writes).job? j.id).any (·.state.active))
    (l := (S.applyAll x.writes).reapOrder o.clock))).map JobRec.id
  refine ⟨rfl, (Db.reapOrder_sorted _ _).sublist hsub, (htidy.reapOrder_nodup _).sublist hsub, ?_, ?_⟩
  · rw [List.length_map]
    exact List.length_take_le _ _
  · intro id hid
    refine ⟨List.mem_append_right _ ?_, ?_⟩
    · simp only [Stmt.takes, Stmt.selects, List.flatMap_nil, List.append_nil]
      exact List.mem_map_of_mem hid
    · obtain ⟨j, hj, rfl⟩ := List.mem_map.mp hid
      have hcond := (List.mem_filter.mp (List.mem_of_mem_take hj)).2
      rw [Bool.and_eq_true, Option.any_eq_true] at hcond
      exact hcond.2

theorem reap_redone {n : Nat} (h : Amid (Oracle.Within b e) x Store.reap n y) (hx : x.Owns)
    (hnew : x.writes = []) : Redone (Oracle.Within b e) x Store.reap n y := by
  unfold Store.reap at h ⊢
  obtain ⟨o, S, C, ids, ws, hpick, h⟩ := h.sql
  obtain ⟨rfl, hsorted, hnodup, hlength, hids⟩ := hpick.expiredJobs hx
  have hx₁ := hpick.owns hx trivial
  obtain ⟨howns, ids', hsub, hloop⟩ := reapLoop_replays h hx₁ hnodup (fun id hid => (hids id hid).1)
    (fun id _ w hw => by
      rw [Point.after, hnew] at hw
      cases hw)
  refine ⟨howns, fun {Z} hZ => ?_⟩
  obtain ⟨hthere, hrep⟩ := hloop hZ
  have hview := h.view hx₁ hZ
  simp only [Point.after, hnew, List.append_nil] at hrep hview ⊢
  have hbounds : b ≤ e := (hpick.oracle 0).1.trans (hpick.oracle 0).2
  have hredo : Stmt.expiredJobs.Redo (Oracle.Within b e) Z ids' [] := by
    refine ⟨⟨fun _ => e, 0, 0, fun id => decide (id ∉ ids')⟩, [], fun _ => ⟨hbounds, le_rfl⟩, ?_, rfl⟩
    have hsel := hZ.tidy.reapOrder_pick (e := e) (hsorted.sublist hsub) (hnodup.sublist hsub)
      (hsub.length_le.trans hlength) (fun id hid => ?_)
    · simp only [Stmt.eval, hsel]
    · obtain ⟨hlock, j, hj, hactive⟩ := hids id (hsub.subset hid)
      obtain ⟨a, ha, hjob, hexpired⟩ := hthere id hid
      rw [hnew] at hj
      have hjZ : Z.job? id = some j := (hview.jobHeld hlock).trans hj
      refine ⟨j, hjZ, ?_⟩
      simp only [Db.reapable, hactive, Bool.true_and, List.any_eq_true, Bool.and_eq_true,
        decide_eq_true_eq]
      exact ⟨a, ha, hjob.trans (Db.job?_id hjZ).symm, hexpired⟩
  exact .sql hredo hrep

end Reap

end Rungrid
