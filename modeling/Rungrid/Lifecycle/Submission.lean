-- SUMMARY: Submit as a batch upsert: when it succeeds, what it adds, how batches compose, and how definitions are compared.
import Rungrid.Scheduler.Column
import Rungrid.Lifecycle.Stability

/-!
# Submission

`Upsert` says what a batch does, one job after the other: the job of a key is
stored with the same definition, or it is added with its event. The loop of
`Submit` performs an upsert, and it succeeds exactly when the definitions of the
batch agree with each other and with what is stored. The generated ids are
assumed not to be in use.
-/

namespace Rungrid

open Prog (sql Runs run run_map run_sql_bind runs_done not_runs_fail runs_bind runs_of_run)

/-! ## Batches as upserts -/

/-- The database with a new job and its event. -/
def Db.withJob (db : Db) (j : Job) (id : Uuid) (o oe : Oracle) : Db :=
  db.applyAll [.insertJob (j.newRow id o), .insertEvent (db.newEvent oe id none .submitted .empty)]

/-- The error of a batch that reuses a key for another definition. -/
def reused : Err := .conflict (some "idempotency key reused with different definition")

/-- The batch takes `db` to `db'` and has the rows. -/
inductive Upsert : Db → List Job → List JobRow → Db → Prop where
  | nil {db : Db} : Upsert db [] [] db
  | stored {db db' : Db} {j : Job} {js : List Job} {rows : List JobRow} {r : JobRec} :
      db.jobByKey? j.idempotencyKey = some r → r.definition = j → Upsert db js rows db' →
      Upsert db (j :: js) (r.row :: rows) db'
  | added {db db' : Db} {j : Job} {js : List Job} {rows : List JobRow} {id : Uuid} {o oe : Oracle} :
      db.jobByKey? j.idempotencyKey = none → db.job? id = none →
      Upsert (db.withJob j id o oe) js rows db' →
      Upsert db (j :: js) ((j.newRow id o).row :: rows) db'

/-- The event that belongs to a new job. -/
def EventRec.Submits (e : EventRec) (r : JobRec) : Prop :=
  e.jobID = r.id ∧ e.attemptID = none ∧ e.eventType = .submitted ∧ e.payload = .empty

/-- `db'` is `db` with the given jobs and one event for each, in order. The new rows
are determined by the jobs up to ids and timestamps. -/
def Db.Extends (db db' : Db) (new : List Job) : Prop :=
  ∃ rows events, List.Forall₂ (fun j r => ∃ id o, r = Job.newRow j id o) new rows ∧
    List.Forall₂ EventRec.Submits events rows ∧
    db' = { db with jobs := db.jobs ++ rows, events := db.events ++ events }

/-- The jobs of the batch that are not stored, the first of each key. -/
def Db.missing (db : Db) (jobs : List Job) : List Job :=
  Table.fresh Job.idempotencyKey (db.jobs.map JobRec.idempotencyKey) jobs

/-- The definitions of the batch agree with what is stored and with each other. -/
structure Db.Consistent (db : Db) (jobs : List Job) : Prop where
  stored : ∀ j ∈ jobs, ∀ r, db.jobByKey? j.idempotencyKey = some r → r.definition = j
  batch : ∀ j ∈ jobs, ∀ k ∈ jobs, j.idempotencyKey = k.idempotencyKey → j = k

section Extends

variable {db mid db' : Db} {new new' : List Job}

theorem Db.Extends.refl (db : Db) : db.Extends db [] := ⟨[], [], .nil, .nil, by simp⟩

theorem Db.Extends.trans (h : db.Extends mid new) (h' : mid.Extends db' new') :
    db.Extends db' (new ++ new') := by
  obtain ⟨rows, events, hrows, hevents, rfl⟩ := h
  obtain ⟨rows', events', hrows', hevents', rfl⟩ := h'
  exact ⟨rows ++ rows', events ++ events', List.rel_append hrows hrows',
    List.rel_append hevents hevents', by simp⟩

theorem Db.Extends.jobByKey? (h : db.Extends db' new) {key : String} {r : JobRec}
    (hr : db.jobByKey? key = some r) : db'.jobByKey? key = some r := by
  obtain ⟨rows, events, -, -, rfl⟩ := h
  simp only [Db.jobByKey?, Table.find, List.find?_append] at hr ⊢
  rw [hr]
  rfl

private theorem forall_newRow {rows : List JobRec}
    (h : List.Forall₂ (fun j r => ∃ id o, r = Job.newRow j id o) new rows) :
    ∀ r ∈ rows, ∃ id o, r = r.definition.newRow id o := by
  induction h with
  | nil => simp
  | cons hr _ ih =>
      obtain ⟨id, o, rfl⟩ := hr
      rintro r (_ | ⟨_, hr⟩)
      · exact ⟨id, o, rfl⟩
      · exact ih r hr

/-- A job found after an extension was stored before or is new. -/
theorem Db.Extends.of_jobByKey? (h : db.Extends db' new) {key : String} {r : JobRec}
    (hr : db'.jobByKey? key = some r) :
    db.jobByKey? key = some r ∨
      (db.jobByKey? key = none ∧ ∃ id o, r = r.definition.newRow id o) := by
  obtain ⟨rows, events, hrows, -, rfl⟩ := h
  cases hold : db.jobByKey? key with
  | some r' =>
      simp only [Db.jobByKey?, Table.find, List.find?_append] at hr hold
      rw [hold] at hr
      exact .inl hr
  | none =>
      simp only [Db.jobByKey?, Table.find, List.find?_append] at hr hold
      rw [hold, Option.none_or] at hr
      exact .inr ⟨rfl, forall_newRow hrows r (List.mem_of_find?_eq_some hr)⟩

end Extends

/-! ## What an upsert does -/

section Upsert

variable {db mid db' : Db} {js : List Job} {rows : List JobRow}

theorem Db.withJob_extends (db : Db) (j : Job) (id : Uuid) (o oe : Oracle) :
    db.Extends (db.withJob j id o oe) [j] :=
  ⟨[j.newRow id o], [db.newEvent oe id none .submitted .empty], .cons ⟨id, o, rfl⟩ .nil,
    .cons ⟨rfl, rfl, rfl, rfl⟩ .nil, rfl⟩

theorem Db.jobByKey?_withJob {j : Job} (h : db.jobByKey? j.idempotencyKey = none) (id : Uuid)
    (o oe : Oracle) :
    (db.withJob j id o oe).jobByKey? j.idempotencyKey = some (j.newRow id o) :=
  Db.jobByKey?_insertJob (r := j.newRow id o) h

/-- Only the missing jobs of the batch are added. -/
theorem Upsert.extends (h : Upsert db js rows db') : db.Extends db' (db.missing js) := by
  induction h with
  | nil => exact .refl _
  | @stored db db' j js rows r hr _ _ ih =>
      have hmem : j.idempotencyKey ∈ db.jobs.map JobRec.idempotencyKey :=
        List.mem_map.mpr ⟨r, Table.mem_of_find hr, Table.key_of_find hr⟩
      rw [Db.missing, Table.fresh, if_pos hmem]
      exact ih
  | @added db db' j js rows id o oe hnone _ _ ih =>
      have hmem : j.idempotencyKey ∉ db.jobs.map JobRec.idempotencyKey := by
        simpa using Table.find_eq_none.mp hnone
      rw [Db.missing, Table.fresh, if_neg hmem]
      have hkeys : (db.withJob j id o oe).missing js
          = Table.fresh Job.idempotencyKey (j.idempotencyKey ::
            db.jobs.map JobRec.idempotencyKey) js :=
        Table.fresh_congr (fun key => by simp [Db.withJob, Db.apply, Job.newRow, or_comm]) js
      rw [← hkeys]
      exact (db.withJob_extends j id o oe).trans ih

/-- The rows of an upsert are those of the jobs stored under the keys. -/
theorem Upsert.found (h : Upsert db js rows db') :
    List.Forall₂ (fun j row => ∃ r, db'.jobByKey? j.idempotencyKey = some r ∧ row = r.row ∧
      r.definition = j) js rows := by
  induction h with
  | nil => exact .nil
  | stored hr hdef hrest ih => exact .cons ⟨_, hrest.extends.jobByKey? hr, rfl, hdef⟩ ih
  | added hnone _ hrest ih =>
      exact .cons ⟨_, hrest.extends.jobByKey? (Db.jobByKey?_withJob hnone _ _ _), rfl, rfl⟩ ih

/-- Every job of the batch is the definition stored under its key. -/
theorem Upsert.definition (h : Upsert db js rows db') :
    ∀ j ∈ js, ∃ r, db'.jobByKey? j.idempotencyKey = some r ∧ r.definition = j := by
  have hrows := h.found
  intro j hj
  clear h
  induction hrows with
  | nil => cases hj
  | cons hr _ ih =>
      rcases List.mem_cons.mp hj with rfl | hj
      · obtain ⟨r, hfound, -, hdef⟩ := hr
        exact ⟨r, hfound, hdef⟩
      · exact ih hj

theorem Upsert.consistent (h : Upsert db js rows db') : db.Consistent js where
  stored j hj r hr := by
    obtain ⟨r', hr', hdef⟩ := h.definition j hj
    obtain rfl := Option.some.inj ((h.extends.jobByKey? hr).symm.trans hr')
    exact hdef
  batch j hj k hk hkey := by
    obtain ⟨r, hr, hdef⟩ := h.definition j hj
    obtain ⟨r', hr', hdef'⟩ := h.definition k hk
    rw [hkey] at hr
    obtain rfl := Option.some.inj (hr.symm.trans hr')
    exact hdef.symm.trans hdef'

end Upsert

/-! ## The loop of Submit -/

section Loop

variable {P : Oracle → Prop} {db db' : Db} {j : Job} {js : List Job} {out rows : List JobRow}

/-- The loop performs an upsert. -/
theorem submitLoop_upserts (h : Runs P (Store.submitLoop js out) db rows db') :
    ∃ added, rows = out ++ added ∧ Upsert db js added db' := by
  induction js generalizing out db with
  | nil =>
      obtain ⟨rfl, rfl⟩ := runs_done.mp h
      exact ⟨[], by simp, .nil⟩
  | cons j js ih =>
      obtain ⟨oid, -, h⟩ := runs_read (fun _ => rfl) h
      rcases runs_insertJob h with ⟨r, hr, h⟩ | ⟨o, -, hkey, hid, h⟩
      · obtain ⟨_, -, h⟩ := runs_read (fun _ => rfl) h
        simp only [hr, Option.map_some] at h
        split at h
        · exact absurd h not_runs_fail
        · rename_i hdef
          obtain ⟨added, rfl, hup⟩ := ih h
          exact ⟨_, by simp, .stored hr (Job.marshal_injective (not_not.mp hdef)) hup⟩
      · obtain ⟨_, -, h⟩ := runs_read (fun _ => rfl) h
        have hnew : (db.apply (.insertJob (j.newRow (Uuid.ID oid.rand) o))).jobByKey?
            j.idempotencyKey = some (j.newRow (Uuid.ID oid.rand) o) :=
          Db.jobByKey?_insertJob hkey
        simp only [hnew, Option.map_some] at h
        split at h
        · exact absurd h not_runs_fail
        · obtain ⟨oe, -, h⟩ := runs_insertEvent h
          obtain ⟨added, rfl, hup⟩ := ih h
          exact ⟨_, by simp, .added hkey hid hup⟩

/-- The columns of a valid job fit the table. -/
theorem Job.Valid.eval_insertJob (hvalid : j.Valid) (hnul : j.hasNul = false) (id : Uuid)
    (o : Oracle) :
    (Stmt.insertJob id j).eval o db db =
      if (db.jobByKey? j.idempotencyKey).isSome then .ok (false, [])
      else if (db.job? id).isSome then .error (.db .unique)
      else .ok (true, [.insertJob (j.newRow id o)]) := by
  obtain ⟨⟨hc, hm, hg, hc', hm', hg'⟩, -, -⟩ := hvalid.resources
  obtain ⟨ha, ha', ht, ht'⟩ := hvalid.bounds
  have hint : Int4 j.resources.cpu ∧ Int4 j.resources.memoryMB ∧ Int4 j.resources.gpu ∧
      Int4 j.maxAttempts ∧ Int4 j.timeoutSeconds := by
    simp only [Int4]
    omega
  have hpos : 0 ≤ j.resources.cpu ∧ 0 ≤ j.resources.memoryMB ∧ 0 ≤ j.resources.gpu ∧
      0 < j.maxAttempts ∧ 0 < j.timeoutSeconds := by
    omega
  simp only [Stmt.eval, hnul, Job.newRow, hint, hpos, not_true_eq_false, and_self, ↓reduceIte,
    Bool.false_eq_true]

theorem eval_submitted {id : Uuid} {r : JobRec} (h : db.job? id = some r) (o : Oracle) :
    (Stmt.insertEvent id none .submitted .empty).eval o db db
      = .ok ((), [.insertEvent (db.newEvent o id none .submitted .empty)]) := by
  simp [Stmt.eval, EventPayload.hasNul, h]

/-- The first `k` ids generated from the random bytes are distinct and not in use. -/
structure FreshIDs (o : Nat → Oracle) (k : Nat) (db : Db) : Prop where
  unused : ∀ n < k, db.job? (Uuid.ID (o n).rand) = none
  distinct : ∀ n < k, ∀ m < k, Uuid.ID (o n).rand = Uuid.ID (o m).rand → n = m

theorem FreshIDs.drop {o : Nat → Oracle} {k l : Nat} (h : FreshIDs o l db) (i : Nat)
    (hk : k + i ≤ l) : FreshIDs (fun n => o (n + i)) k db where
  unused n hn := h.unused (n + i) (by omega)
  distinct n hn m hm heq := by
    have := h.distinct (n + i) (by omega) (m + i) (by omega) heq
    omega

/-- The id of the new job is in use afterwards, the others are not. -/
theorem FreshIDs.withJob {o : Nat → Oracle} {k l : Nat} (h : FreshIDs o l db) (hk : k + 4 ≤ l)
    (od oe : Oracle) :
    FreshIDs (fun n => o (n + 4)) k (db.withJob j (Uuid.ID (o 0).rand) od oe) where
  unused n hn := by
    have hne : (j.newRow (Uuid.ID (o 0).rand) od).id ≠ Uuid.ID (o (n + 4)).rand := fun heq => by
      have := h.distinct 0 (by omega) (n + 4) (by omega) heq
      omega
    exact (Table.find_append_ne hne).trans (h.unused (n + 4) (by omega))
  distinct := (h.drop 4 hk).distinct

/-- One round of the loop for a key that is stored. -/
theorem run_submitLoop_stored {r : JobRec} (hvalid : j.Valid) (hnul : j.hasNul = false)
    (hr : db.jobByKey? j.idempotencyKey = some r) (hdef : r.definition = j) (o : Nat → Oracle) :
    (Store.submitLoop (j :: js) out).run o db
      = (Store.submitLoop js (out ++ [r.row])).run (fun n => o (n + 3)) db := by
  have hinsert : (Stmt.insertJob (Uuid.ID (o 0).rand) j).eval (o 1) db db = .ok (false, []) := by
    rw [hvalid.eval_insertJob hnul, hr]
    rfl
  rw [Store.submitLoop, run_sql_bind rfl, Db.applyAll_nil, run_sql_bind hinsert, Db.applyAll_nil,
    run_sql_bind rfl]
  have hmarshal : r.row.definition.marshal = j.marshal := congrArg Job.marshal hdef
  simp only [hr, Option.map_some, hmarshal, ne_eq, not_true_eq_false, ↓reduceIte, Bool.false_eq_true,
    Db.applyAll_nil, Nat.add_assoc, Nat.reduceAdd]

/-- One round of the loop for a key that is stored with another definition. -/
theorem run_submitLoop_differs {r : JobRec} (hvalid : j.Valid) (hnul : j.hasNul = false)
    (hr : db.jobByKey? j.idempotencyKey = some r) (hdef : r.definition ≠ j) (o : Nat → Oracle) :
    (Store.submitLoop (j :: js) out).run o db
      = .error reused := by
  have hinsert : (Stmt.insertJob (Uuid.ID (o 0).rand) j).eval (o 1) db db = .ok (false, []) := by
    rw [hvalid.eval_insertJob hnul, hr]
    rfl
  rw [Store.submitLoop, run_sql_bind rfl, Db.applyAll_nil, run_sql_bind hinsert, Db.applyAll_nil,
    run_sql_bind rfl]
  have hmarshal : r.row.definition.marshal ≠ j.marshal := fun h => hdef (Job.marshal_injective h)
  simp only [hr, Option.map_some, ne_eq, hmarshal, not_false_eq_true, ↓reduceIte]
  rfl

/-- One round of the loop for a key that is not stored. -/
theorem run_submitLoop_added (hvalid : j.Valid) (hnul : j.hasNul = false) {o : Nat → Oracle}
    (hnone : db.jobByKey? j.idempotencyKey = none)
    (hid : db.job? (Uuid.ID (o 0).rand) = none) :
    (Store.submitLoop (j :: js) out).run o db
      = (Store.submitLoop js (out ++ [(j.newRow (Uuid.ID (o 0).rand) (o 1)).row])).run
        (fun n => o (n + 4)) (db.withJob j (Uuid.ID (o 0).rand) (o 1) (o 3)) := by
  have hinsert : (Stmt.insertJob (Uuid.ID (o 0).rand) j).eval (o 1) db db
      = .ok (true, [.insertJob (j.newRow (Uuid.ID (o 0).rand) (o 1))]) := by
    rw [hvalid.eval_insertJob hnul, hnone, hid]
    rfl
  have hnew : (db.applyAll [.insertJob (j.newRow (Uuid.ID (o 0).rand) (o 1))]).jobByKey?
      j.idempotencyKey = some (j.newRow (Uuid.ID (o 0).rand) (o 1)) :=
    Db.jobByKey?_insertJob (r := j.newRow (Uuid.ID (o 0).rand) (o 1)) hnone
  have hstored : (db.applyAll [.insertJob (j.newRow (Uuid.ID (o 0).rand) (o 1))]).job?
      (Uuid.ID (o 0).rand) = some (j.newRow (Uuid.ID (o 0).rand) (o 1)) :=
    Db.job?_insertJob (r := j.newRow (Uuid.ID (o 0).rand) (o 1)) hid
  rw [Store.submitLoop, run_sql_bind rfl, Db.applyAll_nil, run_sql_bind hinsert, run_sql_bind rfl]
  have hmarshal : (j.newRow (Uuid.ID (o 0).rand) (o 1)).row.definition.marshal = j.marshal := rfl
  simp only [hnew, Option.map_some, hmarshal, ne_eq, not_true_eq_false, ↓reduceIte]
  exact run_sql_bind (eval_submitted hstored (o 3))

theorem Db.Consistent.tail (h : db.Consistent (j :: js)) : db.Consistent js where
  stored k hk := h.stored k (List.mem_cons_of_mem j hk)
  batch k hk l hl := h.batch k (List.mem_cons_of_mem j hk) l (List.mem_cons_of_mem j hl)

/-- The rest of a batch agrees with the database its first job is added to. -/
theorem Db.Consistent.withJob (h : db.Consistent (j :: js))
    (hnone : db.jobByKey? j.idempotencyKey = none) (id : Uuid) (o oe : Oracle) :
    (db.withJob j id o oe).Consistent js where
  stored k hk r hfound := by
    by_cases hkey : j.idempotencyKey = k.idempotencyKey
    · rw [← hkey, Db.jobByKey?_withJob hnone] at hfound
      cases hfound
      exact h.batch j List.mem_cons_self k (List.mem_cons_of_mem j hk) hkey
    · have hne : (j.newRow id o).idempotencyKey ≠ k.idempotencyKey := hkey
      have hold : db.jobByKey? k.idempotencyKey = some r :=
        (Table.find_append_ne hne).symm.trans hfound
      exact h.stored k (List.mem_cons_of_mem j hk) r hold
  batch := h.tail.batch

/-- A consistent batch with new ids goes through. -/
theorem submitLoop_succeeds (out : List JobRow) {o : Nat → Oracle}
    (hjobs : ∀ j ∈ js, j.Valid ∧ j.hasNul = false)
    (hcons : db.Consistent js) (hfresh : FreshIDs o (4 * js.length) db) :
    ∃ rows db', (Store.submitLoop js out).run o db = .ok (rows, db') := by
  induction js generalizing out db o with
  | nil => exact ⟨_, _, rfl⟩
  | cons j js ih =>
      obtain ⟨hvalid, hnul⟩ := hjobs j List.mem_cons_self
      have hjs := fun k hk => hjobs k (List.mem_cons_of_mem j hk)
      rw [List.length_cons] at hfresh
      cases hr : db.jobByKey? j.idempotencyKey with
      | some r =>
          rw [run_submitLoop_stored hvalid hnul hr (hcons.stored j List.mem_cons_self r hr)]
          exact ih _ hjs hcons.tail (hfresh.drop 3 (by omega))
      | none =>
          rw [run_submitLoop_added hvalid hnul hr (hfresh.unused 0 (by omega))]
          exact ih _ hjs (hcons.withJob hr _ _ _) (hfresh.withJob (by omega) _ _)

/-- One round of the loop for a key that is not stored, when the new id is in use. -/
theorem run_submitLoop_taken (hvalid : j.Valid) (hnul : j.hasNul = false) {o : Nat → Oracle}
    (hnone : db.jobByKey? j.idempotencyKey = none)
    (hid : (db.job? (Uuid.ID (o 0).rand)).isSome = true) :
    (Store.submitLoop (j :: js) out).run o db = .error (.db .unique) := by
  have hinsert : (Stmt.insertJob (Uuid.ID (o 0).rand) j).eval (o 1) db db = .error (.db .unique) := by
    rw [hvalid.eval_insertJob hnul, hnone, if_pos hid]
    rfl
  rw [Store.submitLoop, run_sql_bind rfl, Db.applyAll_nil]
  simp only [sql, Prog.exec_bind, Prog.run, hinsert]

/-- A consistent batch is not in conflict, whatever ids are generated. -/
theorem submitLoop_agrees (out : List JobRow) {o : Nat → Oracle}
    (hjobs : ∀ j ∈ js, j.Valid ∧ j.hasNul = false) (hcons : db.Consistent js) :
    (Store.submitLoop js out).run o db ≠ .error reused := by
  induction js generalizing out db o with
  | nil =>
      intro h
      cases h
  | cons j js ih =>
      obtain ⟨hvalid, hnul⟩ := hjobs j List.mem_cons_self
      have hjs := fun k hk => hjobs k (List.mem_cons_of_mem j hk)
      cases hr : db.jobByKey? j.idempotencyKey with
      | some r =>
          rw [run_submitLoop_stored hvalid hnul hr (hcons.stored j List.mem_cons_self r hr)]
          exact ih _ hjs hcons.tail
      | none =>
          cases hid : db.job? (Uuid.ID (o 0).rand) with
          | none =>
              rw [run_submitLoop_added hvalid hnul hr hid]
              exact ih _ hjs (hcons.withJob hr _ _ _)
          | some r =>
              rw [run_submitLoop_taken hvalid hnul hr (by rw [hid]; rfl)]
              intro h
              cases h

/-- With new ids, a batch that does not go through is in conflict. -/
theorem submitLoop_total (out : List JobRow) {o : Nat → Oracle}
    (hjobs : ∀ j ∈ js, j.Valid ∧ j.hasNul = false) (hfresh : FreshIDs o (4 * js.length) db) :
    (∃ rows db', (Store.submitLoop js out).run o db = .ok (rows, db')) ∨
      (Store.submitLoop js out).run o db
        = .error reused := by
  induction js generalizing out db o with
  | nil => exact .inl ⟨_, _, rfl⟩
  | cons j js ih =>
      obtain ⟨hvalid, hnul⟩ := hjobs j List.mem_cons_self
      have hjs := fun k hk => hjobs k (List.mem_cons_of_mem j hk)
      rw [List.length_cons] at hfresh
      cases hr : db.jobByKey? j.idempotencyKey with
      | some r =>
          by_cases hdef : r.definition = j
          · rw [run_submitLoop_stored hvalid hnul hr hdef]
            exact ih _ hjs (hfresh.drop 3 (by omega))
          · exact .inr (run_submitLoop_differs hvalid hnul hr hdef o)
      | none =>
          rw [run_submitLoop_added hvalid hnul hr (hfresh.unused 0 (by omega))]
          exact ih _ hjs (hfresh.withJob (by omega) _ _)

/-- A batch whose definitions are all stored changes nothing. -/
theorem submitLoop_stored (out : List JobRow) {o : Nat → Oracle}
    (hjobs : ∀ j ∈ js, j.Valid ∧ j.hasNul = false)
    (hstored : ∀ j ∈ js, ∃ r, db.jobByKey? j.idempotencyKey = some r ∧ r.definition = j) :
    ∃ rows, (Store.submitLoop js out).run o db = .ok (rows, db) := by
  induction js generalizing out o with
  | nil => exact ⟨_, rfl⟩
  | cons j js ih =>
      obtain ⟨hvalid, hnul⟩ := hjobs j List.mem_cons_self
      obtain ⟨r, hr, hdef⟩ := hstored j List.mem_cons_self
      rw [run_submitLoop_stored hvalid hnul hr hdef]
      exact ih _ (fun k hk => hjobs k (List.mem_cons_of_mem j hk))
        (fun k hk => hstored k (List.mem_cons_of_mem j hk))

end Loop

/-! ## Submit -/

section Submit

variable {db db' : Db} {jobs : List Job} {rows : List JobRow}

theorem run_lockKeys {α : Type} {keys : List String} (hkeys : ∀ key ∈ keys, Text.hasNul key = false)
    (f : Unit → Prog α) (o : Nat → Oracle) (db : Db) :
    (Store.lockKeys keys >>= f).run o db = (f ()).run (fun n => o (n + keys.length)) db := by
  induction keys generalizing o with
  | nil => rfl
  | cons key keys ih =>
      have hlock : (Stmt.lockKey key).eval (o 0) db db = .ok ((), []) := by
        simp [Stmt.eval, hkeys key List.mem_cons_self]
      have hbind : (Store.lockKeys (key :: keys) >>= f)
          = (sql (.lockKey key) >>= fun _ => Store.lockKeys keys >>= f) := rfl
      rw [hbind, run_sql_bind hlock, Db.applyAll_nil,
        ih (fun k hk => hkeys k (List.mem_cons_of_mem key hk))]
      simp only [List.length_cons, Nat.add_assoc]

/-- The batches `Submit` looks at. -/
structure Admissible (jobs : List Job) : Prop where
  nonempty : 1 ≤ jobs.length
  short : jobs.length ≤ 1000
  valid : ∀ j ∈ jobs, j.Valid ∧ j.hasNul = false

theorem Admissible.run_submit (h : Admissible jobs) (o : Nat → Oracle) (db : Db) :
    (Store.submit jobs).run o db
      = (Store.submitLoop jobs []).run (fun n => o (n + jobs.length)) db := by
  have hlen : ¬ (jobs.length < 1 ∨ jobs.length > 1000) := by
    have := h.nonempty
    have := h.short
    omega
  have hvalid : jobs.findSome? Job.validate = none :=
    List.findSome?_eq_none_iff.mpr (fun j hj => (h.valid j hj).1)
  have hkeys : ∀ key ∈ (jobs.map Job.idempotencyKey).insertionSort (· ≤ ·),
      Text.hasNul key = false := by
    intro key hkey
    obtain ⟨j, hj, rfl⟩ := List.mem_map.mp ((List.perm_insertionSort _ _).mem_iff.mp hkey)
    exact (Job.hasNul_eq_false.mp (h.valid j hj).2).2.2.2.1
  rw [Store.submit, if_neg hlen]
  simp only [hvalid]
  rw [run_lockKeys hkeys, List.length_insertionSort, List.length_map]

variable [Sha256] {c : Call}

/-- A successful submission performs an upsert. -/
theorem perform_submit_upserts {res : Result} (hop : c.op = .submit jobs)
    (h : perform c db = (.ok res, db')) : ∃ rows, res = .rows rows ∧ Upsert db jobs rows db' := by
  have hrun := runs_of_run (P := fun _ => True) (fun _ => trivial) (perform_ok.mp h)
  rw [hop] at hrun
  obtain ⟨rows, mid, hsubmit, hdone⟩ := runs_bind.mp hrun
  obtain ⟨rfl, rfl⟩ := runs_done.mp hdone
  unfold Store.submit at hsubmit
  split at hsubmit
  · exact absurd hsubmit not_runs_fail
  split at hsubmit
  · exact absurd hsubmit not_runs_fail
  · obtain ⟨_, start, hlock, hloop⟩ := runs_bind.mp hsubmit
    rw [lockKeys_runs hlock] at hloop
    obtain ⟨added, rfl, hup⟩ := submitLoop_upserts hloop
    exact ⟨_, rfl, by simpa using hup⟩

theorem Admissible.perform_submit (h : Admissible jobs) (hop : c.op = .submit jobs)
    (hrun : (Store.submitLoop jobs []).run (fun n => c.oracle (n + jobs.length)) db
      = .ok (rows, db')) : perform c db = (.ok (.rows rows), db') := by
  rw [perform_ok, hop]
  have hprog : (Op.submit jobs).prog c.server
      = (Store.submit jobs >>= fun rows => .done (Result.rows rows)) := rfl
  rw [hprog, run_map, h.run_submit, hrun]
  rfl

theorem Admissible.perform_error (h : Admissible jobs) (hop : c.op = .submit jobs) {e : Err} :
    (perform c db).1 = .error e ↔
      (Store.submitLoop jobs []).run (fun n => c.oracle (n + jobs.length)) db = .error e := by
  have hprog : (Op.submit jobs).prog c.server
      = (Store.submit jobs >>= fun rows => .done (Result.rows rows)) := rfl
  simp only [perform, hop, hprog, run_map, h.run_submit]
  cases (Store.submitLoop jobs []).run (fun n => c.oracle (n + jobs.length)) db with
  | error e' => simp [Except.map]
  | ok r => simp [Except.map]

end Submit

/-! ## Composition of batches -/

section Compose

variable {db mid db' d : Db} {xs ys : List Job}

/-- The row without the generated id and the timestamps. -/
def JobRow.content (row : JobRow) : JobRow :=
  { row with id := Uuid.ID 0, createdAt := 0, updatedAt := 0 }

theorem Db.Extends.keys {new : List Job} (h : db.Extends db' new) :
    db'.jobs.map JobRec.idempotencyKey
      = db.jobs.map JobRec.idempotencyKey ++ new.map Job.idempotencyKey := by
  obtain ⟨rows, events, hrows, -, rfl⟩ := h
  have hkeys : rows.map JobRec.idempotencyKey = new.map Job.idempotencyKey := by
    induction hrows with
    | nil => rfl
    | cons hr _ ih =>
        obtain ⟨id, o, rfl⟩ := hr
        rw [List.map_cons, List.map_cons, ih]
        rfl
  rw [List.map_append, hkeys]

theorem Db.missing_append (h : db.Extends mid (db.missing xs)) :
    db.missing (xs ++ ys) = db.missing xs ++ mid.missing ys := by
  rw [Db.missing, Table.fresh_append, ← Db.missing]
  refine congrArg _ (Table.fresh_congr (fun key => ?_) ys)
  rw [h.keys, List.mem_append, List.mem_append, Db.missing, Table.mem_map_fresh]
  grind

private theorem Forall₂.join {α β γ : Type} {R : α → β → Prop} {S : α → γ → Prop} {T : β → γ → Prop}
    (hT : ∀ a b c, R a b → S a c → T b c) {l : List α} {m : List β} {n : List γ}
    (hR : List.Forall₂ R l m) (hS : List.Forall₂ S l n) : List.Forall₂ T m n := by
  induction hR generalizing n with
  | nil =>
      cases hS
      exact .nil
  | cons hr _ ih =>
      cases hS with
      | cons hs hS => exact .cons (hT _ _ _ hr hs) (ih hS)

/-- Jobs with the same definition found in two extensions of a database. -/
theorem Db.Extends.content_eq {new new' : List Job} {key : String} {r r' : JobRec}
    (h : db.Extends db' new) (h' : db.Extends d new') (hr : db'.jobByKey? key = some r)
    (hr' : d.jobByKey? key = some r') (hdef : r.definition = r'.definition) :
    r.row.content = r'.row.content := by
  rcases h.of_jobByKey? hr with hold | ⟨hnone, id, o, hnew⟩
  · obtain rfl := Option.some.inj ((h'.jobByKey? hold).symm.trans hr')
    rfl
  · rcases h'.of_jobByKey? hr' with hold | ⟨-, id', o', hnew'⟩
    · rw [hnone] at hold
      cases hold
    · rw [hnew, hnew', hdef]
      rfl

/-- Two batches one after the other add what their concatenation adds and have its rows. -/
theorem Upsert.compose {rows rx ry : List JobRow} (h : Upsert db (xs ++ ys) rows db')
    (hx : Upsert db xs rx mid) (hy : Upsert mid ys ry d) :
    db.Extends db' (db.missing (xs ++ ys)) ∧ db.Extends d (db.missing (xs ++ ys)) ∧
      List.Forall₂ (fun a b => a.content = b.content) rows (rx ++ ry) := by
  have hboth : db.Extends d (db.missing (xs ++ ys)) := by
    rw [Db.missing_append hx.extends]
    exact hx.extends.trans hy.extends
  refine ⟨h.extends, hboth, ?_⟩
  have hfound := List.rel_append (hx.found.imp (fun j row ⟨r, hr, hrow, hdef⟩ =>
    ⟨r, hy.extends.jobByKey? hr, hrow, hdef⟩)) hy.found
  refine Forall₂.join ?_ h.found hfound
  rintro j _ _ ⟨r, hr, rfl, hdef⟩ ⟨r', hr', rfl, hdef'⟩
  exact h.extends.content_eq hboth hr hr' (hdef.trans hdef'.symm)

end Compose

/-! ## Runs -/

/-- The job is the one stored under the key. -/
def Db.HasJob (db : Db) (key : String) (r : JobRec) : Prop :=
  r ∈ db.jobs ∧ r.idempotencyKey = key ∧ ∀ r' ∈ db.jobs, r'.idempotencyKey = key → r' = r

theorem Db.WF.hasJob {db : Db} (h : db.WF) {key : String} {r : JobRec}
    (hr : db.jobByKey? key = some r) : db.HasJob key r :=
  ⟨Table.mem_of_find hr, Table.key_of_find hr, fun _ hr' hkey =>
    h.keys.eq_of_key hr' (Table.mem_of_find hr) (hkey.trans (Table.key_of_find hr).symm)⟩

/-- A key keeps its job and its definition. -/
theorem Db.Grows.jobByKey? {db db' : Db} (h : db.Grows db') (hwf : db.WF) (hwf' : db'.WF)
    {key : String} {r : JobRec} (hr : db.jobByKey? key = some r) :
    ∃ r', db'.jobByKey? key = some r' ∧ r'.id = r.id ∧ r'.definition = r.definition := by
  obtain ⟨r', hr', hfix⟩ := h.job (hwf.job_of_mem (Table.mem_of_find hr))
  obtain ⟨hid, hkey, hdef, -⟩ := JobRec.fixed_eq hfix
  refine ⟨r', ?_, hid, hdef⟩
  rw [← Table.key_of_find hr, ← hkey]
  exact hwf'.keys.find_of_mem (Db.mem_of_job? hr')

/-- What a successful submission returns and leaves. -/
structure Submitted (db : Db) (jobs : List Job) (rows : List JobRow) (db' : Db) : Prop where
  rows : List.Forall₂ (fun j row => ∃ r, db'.HasJob j.idempotencyKey r ∧ row = r.row) jobs rows
  added : db.Extends db' (db.missing jobs)
  once : ((db.missing jobs).map Job.idempotencyKey).Nodup
  keys : ∀ key, key ∈ (db.missing jobs).map Job.idempotencyKey ↔
    key ∈ jobs.map Job.idempotencyKey ∧ ∀ r ∈ db.jobs, r.idempotencyKey ≠ key

theorem Upsert.submitted {db db' : Db} {jobs : List Job} {rows : List JobRow}
    (h : Upsert db jobs rows db') (hwf : db'.WF) : Submitted db jobs rows db' where
  rows := h.found.imp (fun _ _ ⟨r, hr, hrow, _⟩ => ⟨r, hwf.hasJob hr, hrow⟩)
  added := h.extends
  once := Table.keyed_fresh _ _
  keys key := by simp [Db.missing, Table.mem_map_fresh]

section Runs

variable [Sha256] {db db' : Db} {c : Call} {jobs : List Job}

theorem Admissible.perform_iff (hjobs : Admissible jobs) (hop : c.op = .submit jobs)
    (hfresh : FreshIDs c.oracle (5 * jobs.length) db) :
    (∃ rows db', perform c db = (.ok (.rows rows), db')) ↔ db.Consistent jobs := by
  constructor
  · rintro ⟨rows, db', hok⟩
    obtain ⟨_, -, hup⟩ := perform_submit_upserts hop hok
    exact hup.consistent
  · intro hcons
    obtain ⟨rows, db', hrun⟩ := submitLoop_succeeds [] hjobs.valid hcons
      (hfresh.drop jobs.length (by omega))
    exact ⟨rows, db', hjobs.perform_submit hop hrun⟩

/-- A batch that was submitted finds its definitions stored. -/
theorem Admissible.perform_again (hjobs : Admissible jobs) (hop : c.op = .submit jobs)
    {rows : List JobRow} {mid : Db} (hup : Upsert db jobs rows mid) (hgrows : mid.Grows db')
    (hmid : mid.WF) (hdb' : db'.WF) :
    ∃ rows', perform c db' = (.ok (.rows rows'), db') ∧
      List.Forall₂ (fun row row' => row.id = row'.id) rows rows' := by
  have hstored : ∀ j ∈ jobs, ∃ r, db'.jobByKey? j.idempotencyKey = some r ∧ r.definition = j := by
    intro j hj
    obtain ⟨r, hr, hdef⟩ := hup.definition j hj
    obtain ⟨r', hr', -, hdef'⟩ := hgrows.jobByKey? hmid hdb' hr
    exact ⟨r', hr', hdef'.trans hdef⟩
  obtain ⟨rows', hrun⟩ := submitLoop_stored [] hjobs.valid hstored
  have hok := hjobs.perform_submit hop hrun
  refine ⟨rows', hok, ?_⟩
  obtain ⟨_, hres, hup'⟩ := perform_submit_upserts hop hok
  cases hres
  refine Forall₂.join ?_ hup.found hup'.found
  rintro j _ _ ⟨r, hr, rfl, -⟩ ⟨r', hr', rfl, -⟩
  obtain ⟨r'', hr'', hid, -⟩ := hgrows.jobByKey? hmid hdb' hr
  obtain rfl := Option.some.inj (hr''.symm.trans hr')
  exact hid.symm

end Runs

/-- In every reachable state: a batch succeeds exactly when its definitions agree
with what is stored and with each other; it returns the stored jobs in order and
adds the missing ones with their events; a failed batch changes nothing; two batches
one after the other do what their concatenation does, up to ids and timestamps; a
batch submitted again, at any later time, changes nothing and returns the same ids;
and a key keeps its definition. -/
theorem submit_upserts [Sha256] (db : Db) (h : Reachable db) :
    (∀ c jobs, c.op = .submit jobs → Admissible jobs → FreshIDs c.oracle (5 * jobs.length) db →
      ((∃ rows db', perform c db = (.ok (.rows rows), db')) ↔ db.Consistent jobs)) ∧
    (∀ c jobs res db', c.op = .submit jobs → perform c db = (.ok res, db') →
      ∃ rows, res = .rows rows ∧ Submitted db jobs rows db') ∧
    (∀ c jobs e, c.op = .submit jobs → (perform c db).1 = .error e → (perform c db).2 = db) ∧
    (∀ c a b xs ys rows rx ry d mid d', c.op = .submit (xs ++ ys) → a.op = .submit xs →
      b.op = .submit ys → perform c db = (.ok (.rows rows), d) →
      perform a db = (.ok (.rows rx), mid) → perform b mid = (.ok (.rows ry), d') →
      (∃ new, db.Extends d new ∧ db.Extends d' new) ∧
        List.Forall₂ (fun row row' => row.content = row'.content) rows (rx ++ ry)) ∧
    (∀ c jobs rows d, c.op = .submit jobs → Admissible jobs → perform c db = (.ok (.rows rows), d) →
      ∀ ds c', c'.op = .submit jobs →
        ∃ rows', perform c' (exec ds d) = (.ok (.rows rows'), exec ds d) ∧
          List.Forall₂ (fun row row' => row.id = row'.id) rows rows') ∧
    ∀ ds key r, db.HasJob key r →
      ∃ r', (exec ds db).HasJob key r' ∧ r'.id = r.id ∧ r'.definition = r.definition := by
  have hwf : ∀ {d : Db}, Reachable d → d.WF := fun hd => hd.logged.1.wf
  have hnext : ∀ {c res d}, perform c db = (.ok res, d) → Reachable d := fun {c res d} hok => by
    have hd := h.perform c
    rwa [hok] at hd
  refine ⟨fun c jobs hop hjobs hfresh => hjobs.perform_iff hop hfresh, ?_,
    fun c jobs e _ he => perform_transactional c db e he, ?_, ?_, ?_⟩
  · intro c jobs res d hop hok
    obtain ⟨rows, rfl, hup⟩ := perform_submit_upserts hop hok
    exact ⟨rows, rfl, hup.submitted (hwf (hnext hok))⟩
  · intro c a b xs ys rows rx ry d mid d' hc ha hb hok hoka hokb
    obtain ⟨_, hrows, hup⟩ := perform_submit_upserts hc hok
    obtain ⟨_, hrx, hupa⟩ := perform_submit_upserts ha hoka
    obtain ⟨_, hry, hupb⟩ := perform_submit_upserts hb hokb
    cases hrows
    cases hrx
    cases hry
    obtain ⟨hd, hd', hcontent⟩ := hup.compose hupa hupb
    exact ⟨⟨_, hd, hd'⟩, hcontent⟩
  · intro c jobs rows d hop hjobs hok ds c' hop'
    obtain ⟨_, hrows, hup⟩ := perform_submit_upserts hop hok
    cases hrows
    have hd := hnext hok
    exact hjobs.perform_again hop' hup (exec_settles hd ds).grows (hwf hd) (hwf (hd.exec ds))
  · rintro ds key r ⟨hr, rfl, -⟩
    obtain ⟨r', hr', hid, hdef⟩ := (exec_settles h ds).grows.jobByKey? (hwf h) (hwf (h.exec ds))
      ((hwf h).keys.find_of_mem hr)
    exact ⟨r', (hwf (h.exec ds)).hasJob hr', hid, hdef⟩

/-- The job of the sample run submitted again after it has been leased, to a server
that generates other ids. -/
theorem submit_upserts_sample :
    ∃ rows db', @perform Sample.digest ⟨Sample.server, .submit [Sample.job], Sample.oracle 9000⟩
      Sample.leasedDb = (.ok (.rows rows), db') := by
  refine ((@submit_upserts Sample.digest _ Sample.leased_reachable).1
    ⟨Sample.server, .submit [Sample.job], Sample.oracle 9000⟩ [Sample.job] rfl ?_ ?_).mpr ?_
  · exact ⟨by decide, by decide, by decide +kernel⟩
  · exact ⟨by decide +kernel, by decide +kernel⟩
  · refine ⟨?_, ?_⟩
    · intro j hj r hr
      obtain rfl := List.mem_singleton.mp hj
      have hfound : Sample.leasedDb.jobByKey? Sample.job.idempotencyKey = some Sample.jobRow := by
        decide +kernel
      obtain rfl := Option.some.inj (hfound.symm.trans hr)
      rfl
    · simp

/-! ## The comparison of definitions -/

/-- A valid job that is marshalled, stored as `jsonb` and scanned back gives the same
bytes; two jobs give the same bytes only if they are equal. So a batch is rejected for
a reused key only if its definitions disagree with what is stored or with each other,
a batch that disagrees is rejected for it unless a generated id is in use, and a single
job is rejected for it exactly if it is not the definition stored under its key. -/
theorem definitions_compared [Sha256] (pg : Jsonb) :
    (∀ j t, j.Valid → pg.store j.marshal = some t →
      Decode.scan t = some j ∧ (Decode.scan t).map Job.marshal = some j.marshal) ∧
    (∀ j j' : Job, j.marshal = j'.marshal ↔ j = j') ∧
    (∀ db c jobs, c.op = .submit jobs → Admissible jobs →
      ((perform c db).1 = .error reused → ¬ db.Consistent jobs) ∧
      (¬ db.Consistent jobs → FreshIDs c.oracle (5 * jobs.length) db →
        (perform c db).1 = .error reused)) ∧
    ∀ db c j r, c.op = .submit [j] → Admissible [j] → db.jobByKey? j.idempotencyKey = some r →
      ((perform c db).1 = .error reused ↔ r.definition ≠ j) := by
  refine ⟨fun j t hvalid hstore => ?_, fun j j' => Job.marshal_injective.eq_iff, ?_, ?_⟩
  · have hscan := pg.scan_store hvalid hstore
    exact ⟨hscan, by rw [hscan]; rfl⟩
  · intro db c jobs hop hjobs
    refine ⟨fun herr hcons => ?_, fun hcons hfresh => ?_⟩
    · exact submitLoop_agrees [] hjobs.valid hcons ((hjobs.perform_error hop).mp herr)
    · rcases submitLoop_total [] hjobs.valid (hfresh.drop jobs.length (by omega)) with
        ⟨rows, db', hrun⟩ | hrun
      · exact absurd ((hjobs.perform_iff hop hfresh).mp ⟨rows, db', hjobs.perform_submit hop hrun⟩)
          hcons
      · exact (hjobs.perform_error hop).mpr hrun
  · intro db c j r hop hjobs hr
    obtain ⟨hvalid, hnul⟩ := hjobs.valid j (List.mem_singleton_self j)
    refine ⟨fun herr hdef => ?_, fun hdef => ?_⟩
    · have hrun := (hjobs.perform_error hop).mp herr
      rw [run_submitLoop_stored hvalid hnul hr hdef] at hrun
      cases hrun
    · exact (hjobs.perform_error hop).mpr (run_submitLoop_differs hvalid hnul hr hdef _)

/-- The sample job, stored by a column that sorts and respaces. -/
theorem definitions_compared_sample :
    ∃ t, Jsonb.sorted.store Sample.job.marshal = some t ∧ t ≠ Sample.job.marshal ∧
      Decode.scan t = some Sample.job := by
  have hstore : Jsonb.sorted.store Sample.job.marshal
      = some (String.ofList (Json.Style.jsonb.write Sample.job.toJson.canon)) := by
    have hparse : Json.parse Sample.job.marshal = some Sample.job.toJson := Json.parse_marshal _
    simp only [Jsonb.sorted, hparse]
    rw [if_neg (by decide +kernel)]
  have hvalid : Sample.job.Valid := by decide +kernel
  exact ⟨_, hstore, by decide +kernel,
    ((@definitions_compared Sample.digest Jsonb.sorted).1 Sample.job _ hvalid hstore).1⟩

end Rungrid
