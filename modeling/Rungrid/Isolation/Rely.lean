-- SUMMARY: What a transaction's locks protect: how the writes of others change the database it sees.
import Rungrid.Isolation.World
import Rungrid.Lifecycle.Capacity

/-!
# Interference

PostgreSQL locks rows. The transactions of the store protect more than rows by the
order in which they lock: whoever writes an attempt, an artifact or an event holds
the row of its job, and whoever adds an attempt holds the row of its worker.
`Write.guards` is this discipline, and `Rely` is what it gives to a
transaction that holds the locks `L`: what it read of its locked rows stays true,
and the rest of the database only grows.
-/

namespace Rungrid

/-! ## Databases whatever the event ids -/

/-- The tables other than `events`. -/
def Db.tables (db : Db) : Db := { db with events := [] }

/-- The constraints hold, but for the order of the event ids. -/
def Db.Tidy (db : Db) : Prop := db.tables.WF

theorem Db.WF.tidy {db : Db} (h : db.WF) : db.Tidy :=
  { h with eventIDs := List.Pairwise.nil, eventJob := fun _ he => absurd he List.not_mem_nil }

/-- What a write has to satisfy whatever the event ids: its constraints, and that a
receipt is inserted once and answered where it is. -/
def Write.Fits (db : Db) : Write → Prop
  | .insertEvent r => (db.job? r.jobID).isSome
  | .insertRequest r => db.request? r.scope r.requestID = none
  | .putRequest r => (db.request? r.scope r.requestID).isSome
  | w => w.Ok db

theorem Db.Tidy.apply {db : Db} {w : Write} (h : db.Tidy) (hw : w.Fits db) : (db.apply w).Tidy := by
  cases w with
  | insertEvent r => exact h
  | insertRequest r => exact Db.WF.apply (w := .insertRequest r) h trivial
  | putRequest r => exact Db.WF.apply (w := .putRequest r) h trivial
  | insertJob r => exact Db.WF.apply (w := .insertJob r) h hw
  | putJob r => exact Db.WF.apply (w := .putJob r) h hw
  | insertWorker r => exact Db.WF.apply (w := .insertWorker r) h hw
  | putWorker r => exact Db.WF.apply (w := .putWorker r) h hw
  | insertAttempt r => exact Db.WF.apply (w := .insertAttempt r) h hw
  | putAttempt r => exact Db.WF.apply (w := .putAttempt r) h hw
  | insertArtifact r => exact Db.WF.apply (w := .insertArtifact r) h hw

/-! ## Lookups after a replacement

A lookup after a write is a function of the lookup before it. -/

section Lookups

variable {X : Db}

theorem Db.job?_put (X : Db) (r : JobRec) (id : Uuid) :
    (X.apply (.putJob r)).job? id = (X.job? id).map (fun j => if j.id = r.id then r else j) :=
  Table.find_put (fun _ _ h => h)

theorem Db.worker?_put (X : Db) (r : WorkerRec) (id : String) :
    (X.apply (.putWorker r)).worker? id =
      (X.worker? id).map (fun w => if w.id = r.id then r else w) :=
  Table.find_put (fun _ _ h => h)

theorem Db.attempt?_put (X : Db) (r : AttemptRec) (id : Uuid) :
    (X.apply (.putAttempt r)).attempt? id =
      (X.attempt? id).map (fun a => if a.id = r.id then r else a) :=
  Table.find_put (fun _ _ h => h)

theorem Db.request?_put (X : Db) (r : RequestRec) (s i : String) :
    (X.apply (.putRequest r)).request? s i =
      (X.request? s i).map (fun q => if q.key = r.key then r else q) :=
  Table.find_put (fun _ _ h => h)

theorem Db.Tidy.putJob_fixed {r j : JobRec} (h : X.Tidy) (hw : (Write.putJob r).Fits X)
    (hj : j ∈ X.jobs) (hid : j.id = r.id) : r.fixed = j.fixed := by
  obtain ⟨old, hold, hf⟩ := hw
  rwa [Db.WF.jobs h |>.eq_of_key hj (mem_of_job? hold) (hid.trans (job?_id hold).symm)]

theorem Db.Tidy.putAttempt_fixed {r a : AttemptRec} (h : X.Tidy) (hw : (Write.putAttempt r).Fits X)
    (ha : a ∈ X.attempts) (hid : a.id = r.id) : r.fixed = a.fixed := by
  obtain ⟨old, hold, hf, -⟩ := hw
  rwa [Db.WF.attempt_unique h ha (mem_of_attempt? hold) (hid.trans (attempt?_id hold).symm)]

theorem Db.Tidy.jobByKey?_put {r : JobRec} (h : X.Tidy) (hw : (Write.putJob r).Fits X) (k : String) :
    (X.apply (.putJob r)).jobByKey? k =
      (X.jobByKey? k).map (fun j => if j.id = r.id then r else j) :=
  Table.find_put (fun _ hj hid => (JobRec.fixed_eq (h.putJob_fixed hw hj hid)).2.1.symm)

theorem Db.Tidy.put_definition {r j : JobRec} (h : X.Tidy) (hw : (Write.putJob r).Fits X)
    (hj : j ∈ X.jobs) : (if j.id = r.id then r else j).definition = j.definition := by
  split
  · rename_i hid
    exact (JobRec.fixed_eq (h.putJob_fixed hw hj hid)).2.2.1
  · rfl

/-- An attempt stays with its job. -/
theorem Db.Tidy.put_jobID {r a : AttemptRec} (h : X.Tidy) (hw : (Write.putAttempt r).Fits X)
    (ha : a ∈ X.attempts) : (if a.id = r.id then r else a).jobID = a.jobID := by
  split
  · rename_i hid
    exact (AttemptRec.fixed_eq (h.putAttempt_fixed hw ha hid)).2.1
  · rfl

theorem Db.Tidy.attemptsOf_put {r : AttemptRec} (h : X.Tidy) (hw : (Write.putAttempt r).Fits X)
    (job : Uuid) : (X.apply (.putAttempt r)).attemptsOf job =
      if r.jobID = job then Table.put AttemptRec.id r (X.attemptsOf job) else X.attemptsOf job := by
  obtain ⟨old, hold, hf, -⟩ := id hw
  obtain ⟨hid, hjob, -⟩ := AttemptRec.fixed_eq hf
  have hold' : X.attempt? old.id = some old := by rw [← hid]; exact hold
  split
  · exact Db.WF.attemptsOf_put h hold' hf job
  · rename_i hne
    exact Db.WF.attemptsOf_put_ne h hold' hf (fun e => hne (hjob.trans e))

end Lookups

/-! ## The discipline -/

/-- The locks a transaction holds when it makes a write. -/
def Write.guards : Write → List Lock
  | .insertJob r => [.job r.id, .advisory r.idempotencyKey]
  | .putJob r => [.job r.id]
  | .insertWorker r | .putWorker r => [.worker r.id]
  | .insertAttempt r => [.attempt r.id, .job r.jobID, .worker r.workerID]
  | .putAttempt r => [.job r.jobID]
  | .insertArtifact r => [.artifact r.id, .object r.objectKey, .job r.jobID]
  | .insertEvent r => [.job r.jobID]
  | .insertRequest r | .putRequest r => [.request r.scope r.requestID]

/-- A write that fits, made under its guards. -/
structure Write.Owned (L : List Lock) (db : Db) (w : Write) : Prop where
  guards : w.guards ⊆ L
  fits : w.Fits db

/-- Each write is owned in the database the earlier ones leave. -/
def Write.AllOwned (L : List Lock) (db : Db) : List Write → Prop
  | [] => True
  | w :: ws => w.Owned L db ∧ AllOwned L (db.apply w) ws

theorem Write.allOwned_append {L : List Lock} {db : Db} {ws vs : List Write} :
    AllOwned L db (ws ++ vs) ↔ AllOwned L db ws ∧ AllOwned L (db.applyAll ws) vs := by
  induction ws generalizing db with
  | nil => simp [AllOwned]
  | cons w ws ih => simp [AllOwned, ih, and_assoc]

theorem Write.AllOwned.mono {L L' : List Lock} (hL : L ⊆ L') {db : Db} {ws : List Write}
    (h : AllOwned L db ws) : AllOwned L' db ws := by
  induction ws generalizing db with
  | nil => trivial
  | cons w ws ih => exact ⟨⟨fun l hl => hL (h.1.guards hl), h.1.fits⟩, ih h.2⟩

theorem Db.Tidy.applyAll {L : List Lock} {db : Db} {ws : List Write} (h : db.Tidy)
    (hws : Write.AllOwned L db ws) : (db.applyAll ws).Tidy := by
  induction ws generalizing db with
  | nil => exact h
  | cons w ws ih => exact ih (h.apply hws.1.fits) hws.2

/-! ## Interference -/

/-- What the others can have done between two moments, for a holder of the locks `L`. -/
structure Rely (L : List Lock) (X Y : Db) : Prop where
  key : ∀ {k j}, X.jobByKey? k = some j →
    ∃ j', Y.jobByKey? k = some j' ∧ j'.definition = j.definition
  keyFree : ∀ {k}, .advisory k ∈ L → X.jobByKey? k = none → Y.jobByKey? k = none
  job : ∀ {id}, (X.job? id).isSome → (Y.job? id).isSome
  jobHeld : ∀ {id}, .job id ∈ L → Y.job? id = X.job? id
  attemptsHeld : ∀ {id}, .job id ∈ L → Y.attemptsOf id = X.attemptsOf id
  artifactsHeld : ∀ {id}, .job id ∈ L → Y.artifactsOf id = X.artifactsOf id
  worker : ∀ {id}, (X.worker? id).isSome → (Y.worker? id).isSome
  workerHeld : ∀ {id}, .worker id ∈ L → Y.worker? id = X.worker? id
  attempt : ∀ {id a}, X.attempt? id = some a →
    ∃ a', Y.attempt? id = some a' ∧ a'.jobID = a.jobID
  attemptHeld : ∀ {id a}, X.attempt? id = some a → .job a.jobID ∈ L → Y.attempt? id = some a
  attemptFree : ∀ {id}, .attempt id ∈ L → X.attempt? id = none → Y.attempt? id = none
  artifact : ∀ {k a}, X.artifactByKey? k = some a → Y.artifactByKey? k = some a
  artifactFree : ∀ {id}, .artifact id ∈ L → X.artifact? id = none → Y.artifact? id = none
  objectFree : ∀ {k}, .object k ∈ L → X.artifactByKey? k = none → Y.artifactByKey? k = none
  request : ∀ {s i}, (X.request? s i).isSome → (Y.request? s i).isSome
  requestHeld : ∀ {s i}, .request s i ∈ L → Y.request? s i = X.request? s i

namespace Rely

variable {L L' : List Lock} {X Y Z : Db}

theorem refl (L : List Lock) (X : Db) : Rely L X X where
  key h := ⟨_, h, rfl⟩
  keyFree _ h := h
  job h := h
  jobHeld _ := rfl
  attemptsHeld _ := rfl
  artifactsHeld _ := rfl
  worker h := h
  workerHeld _ := rfl
  attempt h := ⟨_, h, rfl⟩
  attemptHeld h _ := h
  attemptFree _ h := h
  artifact h := h
  artifactFree _ h := h
  objectFree _ h := h
  request h := h
  requestHeld _ := rfl

theorem trans (h : Rely L X Y) (h' : Rely L Y Z) : Rely L X Z where
  key hk := by
    obtain ⟨_, hj, hd⟩ := h.key hk
    obtain ⟨j, hj', hd'⟩ := h'.key hj
    exact ⟨j, hj', hd'.trans hd⟩
  keyFree hl hk := h'.keyFree hl (h.keyFree hl hk)
  job hj := h'.job (h.job hj)
  jobHeld hl := (h'.jobHeld hl).trans (h.jobHeld hl)
  attemptsHeld hl := (h'.attemptsHeld hl).trans (h.attemptsHeld hl)
  artifactsHeld hl := (h'.artifactsHeld hl).trans (h.artifactsHeld hl)
  worker hw := h'.worker (h.worker hw)
  workerHeld hl := (h'.workerHeld hl).trans (h.workerHeld hl)
  attempt ha := by
    obtain ⟨_, ha', hj⟩ := h.attempt ha
    obtain ⟨a, ha'', hj'⟩ := h'.attempt ha'
    exact ⟨a, ha'', hj'.trans hj⟩
  attemptHeld ha hl := h'.attemptHeld (h.attemptHeld ha hl) hl
  attemptFree hl ha := h'.attemptFree hl (h.attemptFree hl ha)
  artifact ha := h'.artifact (h.artifact ha)
  artifactFree hl ha := h'.artifactFree hl (h.artifactFree hl ha)
  objectFree hl ha := h'.objectFree hl (h.objectFree hl ha)
  request hr := h'.request (h.request hr)
  requestHeld hl := (h'.requestHeld hl).trans (h.requestHeld hl)

/-- Fewer locks protect less. -/
theorem mono (hL : L ⊆ L') (h : Rely L' X Y) : Rely L X Y :=
  { h with
    keyFree := fun hl => h.keyFree (hL hl)
    jobHeld := fun hl => h.jobHeld (hL hl)
    attemptsHeld := fun hl => h.attemptsHeld (hL hl)
    artifactsHeld := fun hl => h.artifactsHeld (hL hl)
    workerHeld := fun hl => h.workerHeld (hL hl)
    attemptHeld := fun ha hl => h.attemptHeld ha (hL hl)
    attemptFree := fun hl => h.attemptFree (hL hl)
    artifactFree := fun hl => h.artifactFree (hL hl)
    objectFree := fun hl => h.objectFree (hL hl)
    requestHeld := fun hl => h.requestHeld (hL hl) }

/-! ### A write of another transaction -/

/-- A write whose guards the holder of `L` does not have respects its locks. -/
theorem of_write {w : Write} (hX : X.Tidy) (hw : w.Fits X) (hfree : ∀ l ∈ w.guards, l ∉ L) :
    Rely L X (X.apply w) := by
  have hne {κ : Type} {f : κ → Lock} {k k' : κ} (hmem : f k ∈ w.guards) (hl : f k' ∈ L) : k ≠ k' :=
    fun e => hfree _ hmem (e ▸ hl)
  cases w with
  | insertJob r =>
      refine { refl L X with
        key := fun hk => ⟨_, Table.find_append_of_some r hk, rfl⟩
        keyFree := fun hl hk => (Table.find_append_ne (hne (f := Lock.advisory) ?_ hl)).trans hk
        job := fun hj => Table.isSome_find_append r hj
        jobHeld := fun hl => Table.find_append_ne (hne (f := Lock.job) ?_ hl) }
      all_goals simp [Write.guards]
  | putJob r =>
      refine { refl L X with
        key := fun {k j} hk => ?_
        keyFree := fun hl hk => by rw [hX.jobByKey?_put hw, hk, Option.map_none]
        job := fun {id} hj => by rwa [Db.job?_put, Option.isSome_map]
        jobHeld := fun hl => Table.find_put_ne _ (hne (f := Lock.job) ?_ hl) }
      · refine ⟨_, by rw [hX.jobByKey?_put hw, hk, Option.map_some], ?_⟩
        exact hX.put_definition hw (Table.mem_of_find hk)
      · simp [Write.guards]
  | insertWorker r =>
      refine { refl L X with
        worker := fun hj => Table.isSome_find_append r hj
        workerHeld := fun hl => Table.find_append_ne (hne (f := Lock.worker) ?_ hl) }
      simp [Write.guards]
  | putWorker r =>
      refine { refl L X with
        worker := fun {id} hj => by rwa [Db.worker?_put, Option.isSome_map]
        workerHeld := fun hl => Table.find_put_ne _ (hne (f := Lock.worker) ?_ hl) }
      simp [Write.guards]
  | insertAttempt r =>
      refine { refl L X with
        attemptsHeld := fun {id} hl => ?_
        attempt := fun ha => ⟨_, Table.find_append_of_some r ha, rfl⟩
        attemptHeld := fun ha _ => Table.find_append_of_some r ha
        attemptFree := fun hl ha => (Table.find_append_ne (hne (f := Lock.attempt) ?_ hl)).trans ha }
      · rw [Db.attemptsOf_append, if_neg (hne (f := Lock.job) (by simp [Write.guards]) hl),
          List.append_nil]
      · simp [Write.guards]
  | putAttempt r =>
      have hjob {id : Uuid} (hl : .job id ∈ L) : r.jobID ≠ id :=
        hne (f := Lock.job) (by simp [Write.guards]) hl
      refine { refl L X with
        attemptsHeld := fun {id} hl => by rw [hX.attemptsOf_put hw, if_neg (hjob hl)]
        attempt := fun {id a} ha => ?_
        attemptHeld := fun {id a} ha hl => ?_
        attemptFree := fun _ ha => by rw [Db.attempt?_put, ha, Option.map_none] }
      · refine ⟨_, by rw [Db.attempt?_put, ha, Option.map_some], ?_⟩
        exact hX.put_jobID hw (Db.mem_of_attempt? ha)
      · have hid : a.id ≠ r.id := fun e => hjob hl
          (AttemptRec.fixed_eq (hX.putAttempt_fixed hw (Db.mem_of_attempt? ha) e)).2.1
        rw [Db.attempt?_put, ha, Option.map_some, if_neg hid]
  | insertArtifact r =>
      refine { refl L X with
        artifactsHeld := fun {id} hl => ?_
        artifact := fun ha => Table.find_append_of_some r ha
        artifactFree := fun hl ha => (Table.find_append_ne (hne (f := Lock.artifact) ?_ hl)).trans ha
        objectFree := fun hl ha => (Table.find_append_ne (hne (f := Lock.object) ?_ hl)).trans ha }
      · have hjob : r.jobID ≠ id := hne (f := Lock.job) (by simp [Write.guards]) hl
        simp [Db.artifactsOf, Db.apply, hjob]
      all_goals simp [Write.guards]
  | insertEvent r => exact { refl L X with }
  | insertRequest r =>
      refine { refl L X with
        request := fun hr => Table.isSome_find_append r hr
        requestHeld := fun {s i} hl => Table.find_append_ne fun e => ?_ }
      obtain ⟨rfl, rfl⟩ := Prod.mk.inj e
      exact hfree _ (by simp [Write.guards]) hl
  | putRequest r =>
      refine { refl L X with
        request := fun {s i} hr => by rwa [Db.request?_put, Option.isSome_map]
        requestHeld := fun {s i} hl => Table.find_put_ne _ fun e => ?_ }
      obtain ⟨rfl, rfl⟩ := Prod.mk.inj e
      exact hfree _ (by simp [Write.guards]) hl

/-! ### The holder's own writes -/

/-- A write that is owned stays owned. -/
theorem owned {w : Write} (h : Rely L X Y) (hw : w.Owned L X) : w.Owned L Y := by
  refine ⟨hw.guards, ?_⟩
  obtain ⟨hg, hfits⟩ := hw
  cases w with
  | insertJob r =>
      obtain ⟨hid, hkey, hst⟩ := hfits
      exact ⟨(h.jobHeld (hg (by simp [Write.guards]))).trans hid,
        h.keyFree (hg (by simp [Write.guards])) hkey, hst⟩
  | putJob r =>
      obtain ⟨old, hold, hf⟩ := hfits
      exact ⟨old, (h.jobHeld (hg (by simp [Write.guards]))).trans hold, hf⟩
  | insertWorker r =>
      exact ⟨(h.workerHeld (hg (by simp [Write.guards]))).trans hfits.1, hfits.2⟩
  | putWorker r =>
      obtain ⟨old, hold, hf⟩ := hfits
      exact ⟨old, (h.workerHeld (hg (by simp [Write.guards]))).trans hold, hf⟩
  | insertAttempt r =>
      obtain ⟨hfree, hjob, hworker⟩ := hfits
      refine ⟨?_, h.job hjob, h.worker hworker⟩
      have hnew : X.attempt? r.id = none := by
        refine Table.find_eq_none.mpr (fun a ha hid => ?_)
        have hne := List.any_eq_false.mp hfree a ha
        simp [hid] at hne
      have hnew' := Table.find_eq_none.mp (h.attemptFree (hg (by simp [Write.guards])) hnew)
      have hsame : Y.attemptsOf r.jobID = X.attemptsOf r.jobID :=
        h.attemptsHeld (hg (by simp [Write.guards]))
      refine List.any_eq_false.mpr (fun a ha => ?_)
      have hid : a.id ≠ r.id := hnew' a ha
      by_cases hj : a.jobID = r.jobID
      · have hmem : a ∈ X.attemptsOf r.jobID := hsame ▸ Db.mem_attemptsOf.mpr ⟨ha, hj⟩
        exact List.any_eq_false.mp hfree a (Db.mem_attemptsOf.mp hmem).1
      · simp [hid, hj]
  | putAttempt r =>
      obtain ⟨old, hold, hf, hact⟩ := hfits
      refine ⟨old, h.attemptHeld hold ?_, hf, hact⟩
      rw [← (AttemptRec.fixed_eq hf).2.1]
      exact hg (by simp [Write.guards])
  | insertArtifact r =>
      exact ⟨h.artifactFree (hg (by simp [Write.guards])) hfits.1,
        h.objectFree (hg (by simp [Write.guards])) hfits.2⟩
  | insertEvent r => exact h.job hfits
  | insertRequest r => exact (h.requestHeld (hg (by simp [Write.guards]))).trans hfits
  | putRequest r => exact h.request hfits

/-- What the others do and an own write do not get in each other's way. -/
theorem apply {w : Write} (h : Rely L X Y) (hX : X.Tidy) (hY : Y.Tidy) (hw : w.Owned L X) :
    Rely L (X.apply w) (Y.apply w) := by
  have hwY := (h.owned hw).fits
  obtain ⟨hg, hwX⟩ := hw
  cases w with
  | insertJob r =>
      exact { h with
        key := fun {k j} hk => by
          rw [Db.jobByKey?, Db.apply, Table.find_append] at hk
          cases hX' : Table.find JobRec.idempotencyKey k X.jobs with
          | some j₀ =>
              obtain ⟨j', hj', hd⟩ := h.key hX'
              rw [hX', Option.some_or] at hk
              cases hk
              exact ⟨j', Table.find_append_of_some r hj', hd⟩
          | none =>
              rw [hX', Option.none_or] at hk
              split at hk
              · rename_i hrk
                cases hk
                subst hrk
                exact ⟨r, Db.jobByKey?_insertJob hwY.2.1, rfl⟩
              · cases hk
        keyFree := fun {k} hl hk => by
          rw [Db.jobByKey?, Db.apply, Table.find_append, Option.or_eq_none_iff] at hk ⊢
          exact ⟨h.keyFree hl hk.1, hk.2⟩
        job := fun {id} hj => by
          rw [Db.job?, Db.apply, Table.find_append, Option.isSome_or, Bool.or_eq_true] at hj ⊢
          exact hj.imp_left h.job
        jobHeld := fun {id} hl => by
          have hsame := h.jobHeld hl
          simp only [Db.job?, Db.apply, Table.find_append] at hsame ⊢
          rw [hsame] }
  | putJob r =>
      exact { h with
        key := fun {k j} hk => by
          rw [hX.jobByKey?_put hwX] at hk
          obtain ⟨j₀, hj₀, rfl⟩ := Option.map_eq_some_iff.mp hk
          obtain ⟨j', hj', hd⟩ := h.key hj₀
          refine ⟨_, by rw [hY.jobByKey?_put hwY, hj', Option.map_some], ?_⟩
          rw [hY.put_definition hwY (Table.mem_of_find hj'), hd,
            hX.put_definition hwX (Table.mem_of_find hj₀)]
        keyFree := fun {k} hl hk => by
          rw [hX.jobByKey?_put hwX, Option.map_eq_none_iff] at hk
          rw [hY.jobByKey?_put hwY, h.keyFree hl hk, Option.map_none]
        job := fun {id} hj => by
          rw [Db.job?_put, Option.isSome_map] at hj ⊢
          exact h.job hj
        jobHeld := fun {id} hl => by rw [Db.job?_put, Db.job?_put, h.jobHeld hl] }
  | insertWorker r =>
      exact { h with
        worker := fun {id} hj => by
          rw [Db.worker?, Db.apply, Table.find_append, Option.isSome_or, Bool.or_eq_true] at hj ⊢
          exact hj.imp_left h.worker
        workerHeld := fun {id} hl => by
          have hsame := h.workerHeld hl
          simp only [Db.worker?, Db.apply, Table.find_append] at hsame ⊢
          rw [hsame] }
  | putWorker r =>
      exact { h with
        worker := fun {id} hj => by
          rw [Db.worker?_put, Option.isSome_map] at hj ⊢
          exact h.worker hj
        workerHeld := fun {id} hl => by rw [Db.worker?_put, Db.worker?_put, h.workerHeld hl] }
  | insertAttempt r =>
      have hnewY : Table.find AttemptRec.id r.id Y.attempts = none := by
        refine Table.find_eq_none.mpr (fun a ha hid => ?_)
        have hne := List.any_eq_false.mp hwY.1 a ha
        simp [hid] at hne
      -- A row found after the insert is an old one or the new one.
      have hcases {id : Uuid} {a : AttemptRec}
          (ha : (X.apply (.insertAttempt r)).attempt? id = some a) :
          X.attempt? id = some a ∨ (r.id = id ∧ r = a) := by
        rw [Db.attempt?, Db.apply, Table.find_append] at ha
        cases hX' : Table.find AttemptRec.id id X.attempts with
        | some a₀ =>
            rw [hX', Option.some_or] at ha
            exact .inl (hX'.trans ha)
        | none =>
            rw [hX', Option.none_or] at ha
            split at ha
            · rename_i hid
              cases ha
              exact .inr ⟨hid, rfl⟩
            · cases ha
      exact { h with
        attemptsHeld := fun {id} hl => by
          rw [Db.attemptsOf_append, Db.attemptsOf_append, h.attemptsHeld hl]
        attempt := fun {id a} ha => by
          rcases hcases ha with ha | ⟨rfl, rfl⟩
          · obtain ⟨a', ha', hj⟩ := h.attempt ha
            exact ⟨a', Table.find_append_of_some r ha', hj⟩
          · exact ⟨r, Table.find_append_self hnewY, rfl⟩
        attemptHeld := fun {id a} ha hl => by
          rcases hcases ha with ha | ⟨rfl, rfl⟩
          · exact Table.find_append_of_some r (h.attemptHeld ha hl)
          · exact Table.find_append_self hnewY
        attemptFree := fun {id} hl ha => by
          rw [Db.attempt?, Db.apply, Table.find_append, Option.or_eq_none_iff] at ha ⊢
          exact ⟨h.attemptFree hl ha.1, ha.2⟩ }
  | putAttempt r =>
      exact { h with
        attemptsHeld := fun {id} hl => by
          rw [hX.attemptsOf_put hwX, hY.attemptsOf_put hwY, h.attemptsHeld hl]
        attempt := fun {id a} ha => by
          rw [Db.attempt?_put] at ha
          obtain ⟨a₀, ha₀, rfl⟩ := Option.map_eq_some_iff.mp ha
          obtain ⟨a', ha', hj⟩ := h.attempt ha₀
          refine ⟨_, by rw [Db.attempt?_put, ha', Option.map_some], ?_⟩
          rw [hY.put_jobID hwY (Db.mem_of_attempt? ha'), hj,
            hX.put_jobID hwX (Db.mem_of_attempt? ha₀)]
        attemptHeld := fun {id a} ha hl => by
          rw [Db.attempt?_put] at ha ⊢
          obtain ⟨a₀, ha₀, rfl⟩ := Option.map_eq_some_iff.mp ha
          rw [hX.put_jobID hwX (Db.mem_of_attempt? ha₀)] at hl
          rw [h.attemptHeld ha₀ hl, Option.map_some]
        attemptFree := fun {id} hl ha => by
          rw [Db.attempt?_put, Option.map_eq_none_iff] at ha
          rw [Db.attempt?_put, h.attemptFree hl ha, Option.map_none] }
  | insertArtifact r =>
      exact { h with
        artifactsHeld := fun {id} hl => by
          have hsame := h.artifactsHeld hl
          simp only [Db.artifactsOf, Db.apply, List.filter_append] at hsame ⊢
          rw [hsame]
        artifact := fun {k a} ha => by
          rw [Db.artifactByKey?, Db.apply, Table.find_append] at ha ⊢
          cases hX' : Table.find ArtifactRec.objectKey k X.artifacts with
          | some a₀ =>
              have hY' : Table.find ArtifactRec.objectKey k Y.artifacts = some a₀ := h.artifact hX'
              rw [hY', ← hX', ha]
          | none =>
              rw [hX', Option.none_or] at ha
              split at ha
              · rename_i hk
                subst hk
                have hY' : Table.find ArtifactRec.objectKey r.objectKey Y.artifacts = none := hwY.2
                rw [hY', Option.none_or, if_pos rfl, ha]
              · cases ha
        artifactFree := fun {id} hl ha => by
          rw [Db.artifact?, Db.apply, Table.find_append, Option.or_eq_none_iff] at ha ⊢
          exact ⟨h.artifactFree hl ha.1, ha.2⟩
        objectFree := fun {k} hl ha => by
          rw [Db.artifactByKey?, Db.apply, Table.find_append, Option.or_eq_none_iff] at ha ⊢
          exact ⟨h.objectFree hl ha.1, ha.2⟩ }
  | insertEvent r => exact { h with }
  | insertRequest r =>
      exact { h with
        request := fun {s i} hr => by
          rw [Db.request?, Db.apply, Table.find_append, Option.isSome_or, Bool.or_eq_true] at hr ⊢
          exact hr.imp_left h.request
        requestHeld := fun {s i} hl => by
          have hsame := h.requestHeld hl
          simp only [Db.request?, Db.apply, Table.find_append] at hsame ⊢
          rw [hsame] }
  | putRequest r =>
      exact { h with
        request := fun {s i} hr => by
          rw [Db.request?_put, Option.isSome_map] at hr ⊢
          exact h.request hr
        requestHeld := fun {s i} hl => by rw [Db.request?_put, Db.request?_put, h.requestHeld hl] }

/-- So do a sequence of own writes. -/
theorem applyAll {ws : List Write} (h : Rely L X Y) (hX : X.Tidy) (hY : Y.Tidy)
    (hws : Write.AllOwned L X ws) : Rely L (X.applyAll ws) (Y.applyAll ws) := by
  induction ws generalizing X Y with
  | nil => exact h
  | cons w ws ih =>
      exact ih (h.apply hX hY hws.1) (hX.apply hws.1.fits) (hY.apply (h.owned hws.1).fits) hws.2

theorem allOwned {ws : List Write} (h : Rely L X Y) (hX : X.Tidy) (hY : Y.Tidy)
    (hws : Write.AllOwned L X ws) : Write.AllOwned L Y ws := by
  induction ws generalizing X Y with
  | nil => trivial
  | cons w ws ih =>
      have hw := h.owned hws.1
      exact ⟨hw, ih (h.apply hX hY hws.1) (hX.apply hws.1.fits) (hY.apply hw.fits) hws.2⟩

end Rely

/-! ## Commits of other transactions -/

/-- What commits of other transactions do to the committed database. -/
structure Env (L : List Lock) (X Y : Db) : Prop extends Rely L X Y where
  tidy : Y.Tidy
  used : ∀ {id}, .worker id ∈ L → (Y.used id).Le (X.used id)

namespace Env

variable {L L' : List Lock} {X Y Z : Db}

theorem refl (h : X.Tidy) : Env L X X := ⟨.refl L X, h, fun _ => .refl _⟩

theorem trans (h : Env L X Y) (h' : Env L Y Z) : Env L X Z :=
  ⟨h.toRely.trans h'.toRely, h'.tidy, fun hl => (h'.used hl).trans (h.used hl)⟩

theorem mono (hL : L ⊆ L') (h : Env L' X Y) : Env L X Y :=
  ⟨h.toRely.mono hL, h.tidy, fun hl => h.used (hL hl)⟩

/-- Only a holder of the worker's row adds to its load. -/
theorem used_of_write {w : Write} (hX : X.Tidy) (hw : w.Fits X) {id : String}
    (hfree : .worker id ∉ w.guards) : ((X.apply w).used id).Le (X.used id) := by
  have hframe : ∀ {Y : Db}, X.tables.Grows Y.tables → Y.attempts = X.attempts →
      (Y.used id).Le (X.used id) := fun hg hatt =>
    Db.WF.used_le hX hg (f := fun a => a) (by simpa [Db.tables] using hatt)
      (fun _ _ => ⟨rfl, fun h => h⟩) id
  cases w with
  | insertAttempt r =>
      have hg : X.tables.Grows (X.apply (.insertAttempt r)).tables :=
        Db.Grows.apply (w := .insertAttempt r) hw
      have hne : r.workerID ≠ id := fun e => hfree (by simp [Write.guards, e])
      have hzero : (X.apply (.insertAttempt r)).tables.load id r = Resources.zero := by
        simp [Db.load, hne]
      have hsum : (X.apply (.insertAttempt r)).used id = (X.used id).add Resources.zero :=
        hzero ▸ Db.WF.used_append hX hg rfl id
      rw [hsum]
      simp [Resources.Le, Resources.add, Resources.zero]
  | putAttempt r =>
      have hg : X.tables.Grows (X.apply (.putAttempt r)).tables :=
        Db.Grows.apply (w := .putAttempt r) hw
      refine Db.WF.used_le hX hg rfl (fun a ha => ?_) id
      by_cases hid : a.id = r.id
      · rw [if_pos hid]
        obtain ⟨old, hold, hf, hact⟩ := hw
        obtain rfl := Db.WF.attempt_unique hX ha (Db.mem_of_attempt? hold)
          (hid.trans (Db.attempt?_id hold).symm)
        exact ⟨hf, fun _ => hact⟩
      · rw [if_neg hid]
        exact ⟨rfl, fun h => h⟩
  | insertJob r => exact hframe (Db.Grows.apply (w := .insertJob r) hw) rfl
  | putJob r => exact hframe (Db.Grows.apply (w := .putJob r) hw) rfl
  | insertWorker r => exact .refl _
  | putWorker r => exact .refl _
  | insertArtifact r => exact .refl _
  | insertEvent r => exact .refl _
  | insertRequest r => exact .refl _
  | putRequest r => exact .refl _

/-- A commit of writes made under locks that the holder of `L` does not have. -/
theorem of_commit {ws : List Write} (hX : X.Tidy) (hws : Write.AllOwned L' X ws)
    (hfree : ∀ l ∈ L', l ∉ L) : Env L X (X.applyAll ws) := by
  induction ws generalizing X with
  | nil => exact refl hX
  | cons w ws ih =>
      have hfree' : ∀ l ∈ w.guards, l ∉ L := fun l hl => hfree l (hws.1.guards hl)
      have hone : Env L X (X.apply w) := ⟨.of_write hX hws.1.fits hfree', hX.apply hws.1.fits,
        fun hl => used_of_write hX hws.1.fits (fun hmem => hfree' _ hmem hl)⟩
      exact hone.trans (ih (hX.apply hws.1.fits) hws.2)

end Env

end Rungrid
