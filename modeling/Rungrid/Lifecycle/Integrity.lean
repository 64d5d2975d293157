-- SUMMARY: The constraints of the schema as an invariant, the writes that keep them, and what no write changes.
import Rungrid.Store.Statement

/-!
# Integrity

`Db.WF` collects the constraints the tables satisfy in every committed state:
keys, foreign keys, the partial unique index on active attempts, and that the
columns of a job repeat its definition. `Write.Ok` is what a write has to satisfy
to keep them. It also says which columns a replaced row keeps, so that `Db.Grows`
follows: rows never disappear, and their immutable columns never change.
-/

namespace Rungrid

/-! ## Immutable columns -/

/-- A job without the columns that statements update. -/
def JobRec.fixed (j : JobRec) : JobRec :=
  { j with state := .queued, maxAttempts := 0, updatedAt := 0 }

/-- A worker without the columns that statements update. -/
def WorkerRec.fixed (w : WorkerRec) : WorkerRec :=
  { w with state := .active, lastHeartbeatAt := 0 }

/-- An attempt without the columns that statements update. -/
def AttemptRec.fixed (a : AttemptRec) : AttemptRec :=
  { a with
    state := .leased
    leaseExpiresAt := 0
    startedAt := none
    finishedAt := none
    exitCode := none
    failureReason := none }

theorem JobRec.fixed_eq {j j' : JobRec} (h : j'.fixed = j.fixed) :
    j'.id = j.id ∧ j'.idempotencyKey = j.idempotencyKey ∧ j'.definition = j.definition ∧
      j'.resources = j.resources := by
  simp only [fixed, mk.injEq] at h
  simp [resources, h]

theorem AttemptRec.fixed_eq {a a' : AttemptRec} (h : a'.fixed = a.fixed) :
    a'.id = a.id ∧ a'.jobID = a.jobID ∧ a'.attemptNumber = a.attemptNumber ∧
      a'.workerID = a.workerID ∧ a'.leaseToken = a.leaseToken ∧ a'.deadlineAt = a.deadlineAt := by
  simp only [fixed, mk.injEq] at h
  simp [h]

theorem WorkerRec.fixed_eq {w w' : WorkerRec} (h : w'.fixed = w.fixed) :
    w'.id = w.id ∧ w'.sessionID = w.sessionID ∧ w'.capacity = w.capacity := by
  simp only [fixed, mk.injEq] at h
  simp [capacity, h]

/-- The columns of a stored job repeat its definition. -/
structure JobRec.Stored (j : JobRec) : Prop where
  valid : j.definition.Valid
  key : j.idempotencyKey = j.definition.idempotencyKey
  resources : j.resources = j.definition.resources

theorem JobRec.Stored.of_fixed {j j' : JobRec} (hj : j.Stored) (h : j'.fixed = j.fixed) :
    j'.Stored := by
  obtain ⟨_, hkey, hdef, hres⟩ := fixed_eq h
  exact ⟨hdef ▸ hj.valid, by rw [hkey, hdef, hj.key], by rw [hres, hdef, hj.resources]⟩

/-! ## The invariant -/

/-- The constraints of the migration, and what the inserting statements add. -/
structure Db.WF (db : Db) : Prop where
  jobs : Table.Keyed JobRec.id db.jobs
  keys : Table.Keyed JobRec.idempotencyKey db.jobs
  workers : Table.Keyed WorkerRec.id db.workers
  attempts : Table.Keyed AttemptRec.id db.attempts
  artifacts : Table.Keyed ArtifactRec.id db.artifacts
  objects : Table.Keyed ArtifactRec.objectKey db.artifacts
  eventIDs : (db.events.map EventRec.id).Pairwise (· < ·)
  stored : ∀ j ∈ db.jobs, j.Stored
  capacity : ∀ w ∈ db.workers, w.capacity.Valid
  attemptJob : ∀ a ∈ db.attempts, (db.job? a.jobID).isSome
  attemptWorker : ∀ a ∈ db.attempts, (db.worker? a.workerID).isSome
  eventJob : ∀ e ∈ db.events, (db.job? e.jobID).isSome
  oneActive : ∀ a ∈ db.attempts, ∀ b ∈ db.attempts, a.jobID = b.jobID →
    a.state.active → b.state.active → a = b

theorem Db.wf_empty : Db.empty.WF := by
  constructor <;> simp [Db.empty, Table.Keyed]

/-- Rows are never removed, and their immutable columns never change. -/
structure Db.Grows (db db' : Db) : Prop where
  job : ∀ {id j}, db.job? id = some j → ∃ j', db'.job? id = some j' ∧ j'.fixed = j.fixed
  worker : ∀ {id w}, db.worker? id = some w → ∃ w', db'.worker? id = some w' ∧ w'.fixed = w.fixed
  attempt : ∀ {id a}, db.attempt? id = some a →
    ∃ a', db'.attempt? id = some a' ∧ a'.fixed = a.fixed
  artifacts : db.artifacts <+: db'.artifacts
  events : db.events <+: db'.events

namespace Db.Grows

variable {db db' db'' : Db}

theorem refl (db : Db) : db.Grows db where
  job h := ⟨_, h, rfl⟩
  worker h := ⟨_, h, rfl⟩
  attempt h := ⟨_, h, rfl⟩
  artifacts := List.prefix_rfl
  events := List.prefix_rfl

theorem trans (h : db.Grows db') (h' : db'.Grows db'') : db.Grows db'' where
  job hj := by
    obtain ⟨_, hj', hf⟩ := h.job hj
    obtain ⟨j'', hj'', hf'⟩ := h'.job hj'
    exact ⟨j'', hj'', hf'.trans hf⟩
  worker hw := by
    obtain ⟨_, hw', hf⟩ := h.worker hw
    obtain ⟨w'', hw'', hf'⟩ := h'.worker hw'
    exact ⟨w'', hw'', hf'.trans hf⟩
  attempt ha := by
    obtain ⟨_, ha', hf⟩ := h.attempt ha
    obtain ⟨a'', ha'', hf'⟩ := h'.attempt ha'
    exact ⟨a'', ha'', hf'.trans hf⟩
  artifacts := h.artifacts.trans h'.artifacts
  events := h.events.trans h'.events

theorem job_isSome (h : db.Grows db') {id : Uuid} (hj : (db.job? id).isSome) :
    (db'.job? id).isSome := by
  obtain ⟨j, hj⟩ := Option.isSome_iff_exists.mp hj
  obtain ⟨j', hj', _⟩ := h.job hj
  simp [hj']

theorem worker_isSome (h : db.Grows db') {id : String} (hw : (db.worker? id).isSome) :
    (db'.worker? id).isSome := by
  obtain ⟨w, hw⟩ := Option.isSome_iff_exists.mp hw
  obtain ⟨w', hw', _⟩ := h.worker hw
  simp [hw']

end Db.Grows

/-! ## Writes that keep the invariant -/

/-- What a write has to satisfy in the database it is applied to. -/
def Write.Ok (db : Db) : Write → Prop
  | .insertJob r => db.job? r.id = none ∧ db.jobByKey? r.idempotencyKey = none ∧ r.Stored
  | .putJob r => ∃ j, db.job? r.id = some j ∧ r.fixed = j.fixed
  | .insertWorker r => db.worker? r.id = none ∧ r.capacity.Valid
  | .putWorker r => ∃ w, db.worker? r.id = some w ∧ r.fixed = w.fixed
  | .insertAttempt r => db.attemptTaken r.id r.jobID r.attemptNumber = false ∧
      (db.job? r.jobID).isSome ∧ (db.worker? r.workerID).isSome
  | .putAttempt r => ∃ a, db.attempt? r.id = some a ∧ r.fixed = a.fixed ∧ a.state.active
  | .insertArtifact r => db.artifact? r.id = none ∧ db.artifactByKey? r.objectKey = none
  | .insertEvent r => db.lastEventID < r.id ∧ (db.job? r.jobID).isSome
  | .insertRequest _ | .putRequest _ => True

/-! ## Lookups after a write -/

section Lookups

variable {db : Db}

theorem Db.job?_id {id : Uuid} {j : JobRec} (h : db.job? id = some j) : j.id = id :=
  Table.key_of_find h

theorem Db.attempt?_id {id : Uuid} {a : AttemptRec} (h : db.attempt? id = some a) : a.id = id :=
  Table.key_of_find h

theorem Db.worker?_id {id : String} {w : WorkerRec} (h : db.worker? id = some w) : w.id = id :=
  Table.key_of_find h

theorem Db.mem_of_job? {id : Uuid} {j : JobRec} (h : db.job? id = some j) : j ∈ db.jobs :=
  Table.mem_of_find h

theorem Db.mem_of_attempt? {id : Uuid} {a : AttemptRec} (h : db.attempt? id = some a) :
    a ∈ db.attempts :=
  Table.mem_of_find h

theorem Db.mem_of_worker? {id : String} {w : WorkerRec} (h : db.worker? id = some w) :
    w ∈ db.workers :=
  Table.mem_of_find h

theorem Db.job?_insertJob {r : JobRec} (h : db.job? r.id = none) :
    (db.apply (.insertJob r)).job? r.id = some r :=
  Table.find_append_self h

theorem Db.jobByKey?_insertJob {r : JobRec} (h : db.jobByKey? r.idempotencyKey = none) :
    (db.apply (.insertJob r)).jobByKey? r.idempotencyKey = some r :=
  Table.find_append_self h

theorem Db.job?_putJob {id : Uuid} {j j' : JobRec} (h : db.job? id = some j) (hid : j'.id = j.id) :
    (db.apply (.putJob j')).job? id = some j' := by
  obtain rfl : j'.id = id := hid.trans (job?_id h)
  exact Table.find_put_self h

theorem Db.attempt?_putAttempt {id : Uuid} {a a' : AttemptRec} (h : db.attempt? id = some a)
    (hid : a'.id = a.id) : (db.apply (.putAttempt a')).attempt? id = some a' := by
  obtain rfl : a'.id = id := hid.trans (attempt?_id h)
  exact Table.find_put_self h

theorem Db.worker?_putWorker {id : String} {w w' : WorkerRec} (h : db.worker? id = some w)
    (hid : w'.id = w.id) : (db.apply (.putWorker w')).worker? id = some w' := by
  obtain rfl : w'.id = id := hid.trans (worker?_id h)
  exact Table.find_put_self h

theorem Db.Grows.apply {w : Write} (h : w.Ok db) : db.Grows (db.apply w) := by
  cases w with
  | insertJob r =>
      exact { Grows.refl db with job := fun hj => ⟨_, Table.find_append_of_some r hj, rfl⟩ }
  | putJob r =>
      obtain ⟨old, hold, hf⟩ := h
      refine { Grows.refl db with job := fun {id j} hj => ?_ }
      rcases Table.find_put_cases hold hj with hj' | ⟨rfl, hj'⟩
      · exact ⟨j, hj', rfl⟩
      · exact ⟨r, hj', hf⟩
  | insertWorker r =>
      exact { Grows.refl db with worker := fun hw => ⟨_, Table.find_append_of_some r hw, rfl⟩ }
  | putWorker r =>
      obtain ⟨old, hold, hf⟩ := h
      refine { Grows.refl db with worker := fun {id w} hw => ?_ }
      rcases Table.find_put_cases hold hw with hw' | ⟨rfl, hw'⟩
      · exact ⟨w, hw', rfl⟩
      · exact ⟨r, hw', hf⟩
  | insertAttempt r =>
      exact { Grows.refl db with attempt := fun ha => ⟨_, Table.find_append_of_some r ha, rfl⟩ }
  | putAttempt r =>
      obtain ⟨old, hold, hf, _⟩ := h
      refine { Grows.refl db with attempt := fun {id a} ha => ?_ }
      rcases Table.find_put_cases hold ha with ha' | ⟨rfl, ha'⟩
      · exact ⟨a, ha', rfl⟩
      · exact ⟨r, ha', hf⟩
  | insertArtifact r => exact { Grows.refl db with artifacts := List.prefix_append _ _ }
  | insertEvent r => exact { Grows.refl db with events := List.prefix_append _ _ }
  | insertRequest r => exact { Grows.refl db with }
  | putRequest r => exact { Grows.refl db with }

end Lookups

/-! ## The invariant is kept -/

theorem Db.le_lastEventID {db : Db} {e : EventRec} (h : e ∈ db.events) : e.id ≤ db.lastEventID := by
  unfold Db.lastEventID
  generalize db.events = es at h ⊢
  induction es with
  | nil => cases h
  | cons e' es ih =>
      simp only [List.map_cons, List.foldr_cons]
      rcases List.mem_cons.mp h with rfl | h
      · exact le_max_left _ _
      · exact (ih h).trans (le_max_right _ _)

namespace Db.WF

variable {db : Db}

/-- A row of the table after a replacement, in terms of the table before. -/
private theorem mem_put_cases {ρ κ : Type} [DecidableEq κ] {key : ρ → κ} {t : List ρ} {row old r : ρ}
    (hold : Table.find key (key row) t = some old) (hr : r ∈ Table.put key row t) :
    (r = row ∧ old ∈ t) ∨ r ∈ t := by
  rcases Table.mem_put.mp hr with ⟨rfl, _⟩ | ⟨hr, _⟩
  · exact .inl ⟨rfl, Table.mem_of_find hold⟩
  · exact .inr hr

theorem attempt_unique (h : db.WF) {a b : AttemptRec} (ha : a ∈ db.attempts) (hb : b ∈ db.attempts)
    (hid : a.id = b.id) : a = b :=
  h.attempts.eq_of_key ha hb hid

theorem job_of_mem (h : db.WF) {j : JobRec} (hj : j ∈ db.jobs) : db.job? j.id = some j :=
  h.jobs.find_of_mem hj

theorem attempt_of_mem (h : db.WF) {a : AttemptRec} (ha : a ∈ db.attempts) :
    db.attempt? a.id = some a :=
  h.attempts.find_of_mem ha

private theorem apply_putJob (h : db.WF) {r : JobRec} (hw : (Write.putJob r).Ok db) :
    (db.apply (.putJob r)).WF := by
  have hg := Grows.apply hw
  obtain ⟨old, hold, hf⟩ := hw
  have hsame : ∀ j ∈ db.jobs, j.id = r.id → j = old := fun j hj hid =>
    h.jobs.eq_of_key hj (mem_of_job? hold) (hid.trans (job?_id hold).symm)
  have hkeep : ∀ j ∈ db.jobs, j.id = r.id → j.idempotencyKey = r.idempotencyKey :=
    fun j hj hid => by rw [hsame j hj hid, (JobRec.fixed_eq hf).2.1]
  refine { h with
    jobs := h.jobs.put (fun _ _ hid => hid)
    keys := h.keys.put hkeep
    stored := fun j hj => ?_
    attemptJob := fun a ha => hg.job_isSome (h.attemptJob a ha)
    eventJob := fun e he => hg.job_isSome (h.eventJob e he) }
  rcases mem_put_cases hold hj with ⟨rfl, hmem⟩ | hj
  · exact (h.stored old hmem).of_fixed hf
  · exact h.stored j hj

private theorem apply_putAttempt (h : db.WF) {r : AttemptRec} (hw : (Write.putAttempt r).Ok db) :
    (db.apply (.putAttempt r)).WF := by
  obtain ⟨old, hold, hf, hact⟩ := hw
  obtain ⟨hid, hjob, _, hworker, _⟩ := AttemptRec.fixed_eq hf
  have hmem := mem_of_attempt? hold
  -- An active row of the new table comes from an active row with the same job.
  have hback : ∀ a ∈ Table.put AttemptRec.id r db.attempts, a.state.active →
      ∃ a' ∈ db.attempts, a'.jobID = a.jobID ∧ a'.state.active ∧
        ((a = r ∧ a' = old) ∨ (a = a' ∧ a.id ≠ r.id)) := by
    intro a ha haact
    rcases Table.mem_put.mp ha with ⟨rfl, _⟩ | ⟨ha, hne⟩
    · exact ⟨old, hmem, hjob.symm, hact, .inl ⟨rfl, rfl⟩⟩
    · exact ⟨a, ha, rfl, haact, .inr ⟨rfl, hne⟩⟩
  refine { h with
    attempts := h.attempts.put (fun _ _ hid => hid)
    attemptJob := fun a ha => ?_
    attemptWorker := fun a ha => ?_
    oneActive := fun a ha b hb hjobs haact hbact => ?_ }
  · rcases mem_put_cases hold ha with ⟨rfl, _⟩ | ha
    · exact hjob ▸ h.attemptJob old hmem
    · exact h.attemptJob a ha
  · rcases mem_put_cases hold ha with ⟨rfl, _⟩ | ha
    · exact hworker ▸ h.attemptWorker old hmem
    · exact h.attemptWorker a ha
  · obtain ⟨a', ha', hja, haact', hcasea⟩ := hback a ha haact
    obtain ⟨b', hb', hjb, hbact', hcaseb⟩ := hback b hb hbact
    have heq := h.oneActive a' ha' b' hb' (by rw [hja, hjb, hjobs]) haact' hbact'
    subst heq
    rcases hcasea with ⟨rfl, rfl⟩ | ⟨rfl, hne⟩ <;> rcases hcaseb with ⟨rfl, hold'⟩ | ⟨rfl, hne'⟩
    · rfl
    · exact absurd hid.symm hne'
    · exact absurd (hold' ▸ hid.symm) hne
    · rfl

private theorem apply_insertAttempt (h : db.WF) {r : AttemptRec}
    (hw : (Write.insertAttempt r).Ok db) : (db.apply (.insertAttempt r)).WF := by
  obtain ⟨hfree, hjob, hworker⟩ := hw
  simp only [attemptTaken, List.any_eq_false, Bool.or_eq_true, Bool.and_eq_true,
    decide_eq_true_eq, not_or, not_and] at hfree
  refine { h with
    attempts := h.attempts.append (Table.find_eq_none.mpr (fun a ha => (hfree a ha).1))
    attemptJob := fun a ha => ?_
    attemptWorker := fun a ha => ?_
    oneActive := fun a ha b hb hjobs haact hbact => ?_ }
  · rcases List.mem_append.mp ha with ha | ha
    · exact h.attemptJob a ha
    · rw [List.mem_singleton.mp ha]; exact hjob
  · rcases List.mem_append.mp ha with ha | ha
    · exact h.attemptWorker a ha
    · rw [List.mem_singleton.mp ha]; exact hworker
  · rcases List.mem_append.mp ha with ha | ha <;> rcases List.mem_append.mp hb with hb | hb
    · exact h.oneActive a ha b hb hjobs haact hbact
    · rw [List.mem_singleton.mp hb] at hjobs
      exact absurd haact ((hfree a ha).2 hjobs).2
    · rw [List.mem_singleton.mp ha] at hjobs
      exact absurd hbact ((hfree b hb).2 hjobs.symm).2
    · rw [List.mem_singleton.mp ha, List.mem_singleton.mp hb]

/-- Every admissible write keeps the constraints. -/
theorem apply (h : db.WF) {w : Write} (hw : w.Ok db) : (db.apply w).WF := by
  have hg := Grows.apply hw
  cases w with
  | insertJob r =>
      obtain ⟨hid, hkey, hst⟩ := hw
      refine { h with
        jobs := h.jobs.append hid
        keys := h.keys.append hkey
        stored := fun j hj => ?_
        attemptJob := fun a ha => hg.job_isSome (h.attemptJob a ha)
        eventJob := fun e he => hg.job_isSome (h.eventJob e he) }
      rcases List.mem_append.mp hj with hj | hj
      · exact h.stored j hj
      · rw [List.mem_singleton.mp hj]; exact hst
  | putJob r => exact h.apply_putJob hw
  | insertWorker r =>
      obtain ⟨hid, hcap⟩ := hw
      refine { h with
        workers := h.workers.append hid
        capacity := fun w hw => ?_
        attemptWorker := fun a ha => hg.worker_isSome (h.attemptWorker a ha) }
      rcases List.mem_append.mp hw with hw | hw
      · exact h.capacity w hw
      · rw [List.mem_singleton.mp hw]; exact hcap
  | putWorker r =>
      obtain ⟨old, hold, hf⟩ := hw
      refine { h with
        workers := h.workers.put (fun _ _ hid => hid)
        capacity := fun w hw => ?_
        attemptWorker := fun a ha => hg.worker_isSome (h.attemptWorker a ha) }
      rcases mem_put_cases hold hw with ⟨rfl, hmem⟩ | hw
      · exact (WorkerRec.fixed_eq hf).2.2 ▸ h.capacity old hmem
      · exact h.capacity w hw
  | insertAttempt r => exact h.apply_insertAttempt hw
  | putAttempt r => exact h.apply_putAttempt hw
  | insertArtifact r =>
      exact { h with artifacts := h.artifacts.append hw.1, objects := h.objects.append hw.2 }
  | insertEvent r =>
      refine { h with eventIDs := ?_, eventJob := fun e he => ?_ }
      · simp only [Db.apply, List.map_append, List.map_singleton, List.pairwise_append,
          List.pairwise_singleton, List.mem_singleton, List.mem_map, true_and]
        refine ⟨h.eventIDs, ?_⟩
        rintro _ ⟨e, he, rfl⟩ _ rfl
        exact (le_lastEventID he).trans_lt hw.1
      · rcases List.mem_append.mp he with he | he
        · exact h.eventJob e he
        · rw [List.mem_singleton.mp he]; exact hw.2
  | insertRequest r => exact { h with }
  | putRequest r => exact { h with }

end Db.WF

/-! ## Sequences of writes -/

/-- Each write is admissible in the database the earlier ones leave. -/
def Write.AllOk (db : Db) : List Write → Prop
  | [] => True
  | w :: ws => w.Ok db ∧ AllOk (db.apply w) ws

theorem Db.WF.applyAll {db : Db} (h : db.WF) {ws : List Write} (hws : Write.AllOk db ws) :
    (db.applyAll ws).WF := by
  induction ws generalizing db with
  | nil => exact h
  | cons w ws ih => exact ih (h.apply hws.1) hws.2

theorem Db.Grows.applyAll {db : Db} {ws : List Write} (hws : Write.AllOk db ws) :
    db.Grows (db.applyAll ws) := by
  induction ws generalizing db with
  | nil => exact Grows.refl db
  | cons w ws ih => exact (Grows.apply hws.1).trans (ih hws.2)

end Rungrid
