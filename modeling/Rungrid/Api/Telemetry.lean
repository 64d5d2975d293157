-- SUMMARY: What a scrape of the control plane shows: the jobs by state, the expired leases, and what the workers have left.
import Mathlib.Algebra.Order.BigOperators.Group.List
import Mathlib.Algebra.Order.Ring.Nat
import Mathlib.Data.List.Dedup
import Rungrid.Base.Dict
import Rungrid.Lifecycle.Placement
import Rungrid.Lifecycle.Stability

/-!
# The collector

`Collect` of `internal/telemetry/telemetry.go` asks one query after the other, without a
transaction, so each of them sees a state of its own. A query that fails leaves its
variable at zero, and the metric is sent all the same; only a failure of the first query
ends the scrape.
-/

namespace Rungrid

namespace Telemetry

/-! ## Queries -/

/-- `SELECT state,count(*) FROM jobs GROUP BY state`, up to the order of the rows. -/
def stateRows (db : Db) : List (JobState × Nat) :=
  (db.jobs.map JobRec.state).dedup.map (fun s => (s, (db.jobs.map JobRec.state).count s))

/-- `SELECT count(*) FROM attempts WHERE state='EXPIRED'`. -/
def expirations (db : Db) : Nat := db.attempts.countP (fun a => a.state = .expired)

/-- A row of the query for workers. `age` is in microseconds. -/
structure WorkerRow where
  id : String
  state : WorkerState
  age : Int
  cpu : Int
  gpu : Int

/-- The query for workers, up to the order of the rows. The sums are those of `Workers`.
`clock_timestamp()` is read for each row. -/
def workerRows (clock : String → Time) (db : Db) : List WorkerRow :=
  db.workers.map (fun w => ⟨w.id, w.state, clock w.id - w.lastHeartbeatAt,
    w.cpu - (db.used w.id).cpu, w.gpu - (db.used w.id).gpu⟩)

/-! ## Metrics -/

inductive Metric where
  | dbUp (value : Nat)
  | jobs (state : JobState) (value : Nat)
  | leaseExpirations (value : Nat)
  | heartbeatAge (worker : String) (value : Int)
  | availableCpu (worker : String) (value : Int)
  | availableGpu (worker : String) (value : Int)
deriving DecidableEq

/-- The states that are shown. -/
def states : List JobState := [.queued, .leased, .running, .succeeded, .failed, .cancelled]

/-- `counts[state]` after the loop over the rows. -/
def counts (rows : List (JobState × Nat)) (state : JobState) : Nat :=
  (Dict.get state (Dict.update [] rows)).getD 0

/-- `state != "ACTIVE" || age > float64(2*c.Store.LeaseSeconds)`. -/
def WorkerRow.Gone (s : Store) (w : WorkerRow) : Prop :=
  w.state ≠ .active ∨ w.age > seconds (2 * s.leaseSeconds)

instance (s : Store) (w : WorkerRow) : Decidable (w.Gone s) :=
  inferInstanceAs (Decidable (w.state ≠ .active ∨ w.age > seconds (2 * s.leaseSeconds)))

/-- The metrics of a worker. -/
def workerMetrics (s : Store) (w : WorkerRow) : List Metric :=
  [.heartbeatAge w.id w.age, .availableCpu w.id (if w.Gone s then 0 else w.cpu),
    .availableGpu w.id (if w.Gone s then 0 else w.gpu)]

/-- `Collect`, for the results of its queries. -/
def collect (s : Store) (jobs : Option (List (JobState × Nat))) (expired : Option Nat)
    (workers : Option (List WorkerRow)) : List Metric :=
  match jobs with
  | none => [.dbUp 0]
  | some rows =>
      [.dbUp 1] ++ states.map (fun state => .jobs state (counts rows state)) ++
        [.leaseExpirations (expired.getD 0)] ++ (workers.getD []).flatMap (workerMetrics s)

/-- The value of a metric for jobs. -/
def Metric.jobCount : Metric → Option Nat
  | .jobs _ n => some n
  | _ => none

/-- The value of the counter. -/
def Metric.expirations : Metric → Option Nat
  | .leaseExpirations n => some n
  | _ => none

/-- The worker and the value of a gauge for cpu. -/
def Metric.cpu : Metric → Option (String × Int)
  | .availableCpu id n => some (id, n)
  | _ => none

/-- The worker and the value of a gauge for gpu. -/
def Metric.gpu : Metric → Option (String × Int)
  | .availableGpu id n => some (id, n)
  | _ => none

/-! ## Jobs by state -/

theorem stateRows_keyed {db : Db} {rows : List (JobState × Nat)} (h : rows.Perm (stateRows db)) :
    Table.Keyed Prod.fst rows := by
  have hkeys : (stateRows db).map Prod.fst = (db.jobs.map JobRec.state).dedup := by
    rw [stateRows, List.map_map]
    exact List.map_id _
  refine (h.map Prod.fst).nodup_iff.mpr ?_
  rw [hkeys]
  exact List.nodup_dedup _

/-- The rows come in any order, and states without jobs have none. -/
theorem counts_eq {db : Db} {rows : List (JobState × Nat)} (h : rows.Perm (stateRows db))
    (state : JobState) : counts rows state = (db.jobs.map JobRec.state).count state := by
  unfold counts
  by_cases hmem : state ∈ db.jobs.map JobRec.state
  · have hrow : (state, (db.jobs.map JobRec.state).count state) ∈ rows :=
      h.mem_iff.mpr (List.mem_map.mpr ⟨state, List.mem_dedup.mpr hmem, rfl⟩)
    rw [Dict.get_update_of_mem (stateRows_keyed h) hrow]
    rfl
  · have hnone : ∀ e ∈ rows, e.1 ≠ state := by
      intro e he heq
      obtain ⟨state', hstate', rfl⟩ := List.mem_map.mp (h.mem_iff.mp he)
      exact hmem (heq ▸ List.mem_dedup.mp hstate')
    rw [Dict.get_update_of_forall_ne hnone, List.count_eq_zero_of_not_mem hmem]
    rfl

/-- Every job is in one of the states. -/
theorem sum_count_states (ss : List JobState) : (states.map (fun s => ss.count s)).sum = ss.length := by
  induction ss with
  | nil => rfl
  | cons s ss ih =>
      simp only [states, List.map_cons, List.map_nil, List.sum_cons, List.sum_nil, List.count_cons,
        List.length_cons] at ih ⊢
      cases s <;> simp <;> omega

section Collect

variable {s : Store} {rows : List (JobState × Nat)} {expired : Option Nat} {workers : List WorkerRow}

/-- The metrics of one kind, out of the metrics of a scrape. -/
theorem filterMap_collect {α : Type} (f : Metric → Option α) :
    (collect s (some rows) expired (some workers)).filterMap f
      = [.dbUp 1].filterMap f ++ (states.map (fun state => .jobs state (counts rows state))).filterMap f ++
        [.leaseExpirations (expired.getD 0)].filterMap f ++
        workers.flatMap (fun w => (workerMetrics s w).filterMap f) := by
  simp only [collect, Option.getD_some, List.filterMap_append, List.filterMap_flatMap]

theorem collect_jobCounts : (collect s (some rows) expired (some workers)).filterMap Metric.jobCount
    = states.map (counts rows) := by
  have hworkers : workers.flatMap (fun w => (workerMetrics s w).filterMap Metric.jobCount) = [] :=
    List.flatMap_eq_nil_iff.mpr (fun w _ => rfl)
  rw [filterMap_collect, hworkers]
  rfl

theorem collect_expirations :
    (collect s (some rows) expired (some workers)).filterMap Metric.expirations = [expired.getD 0] := by
  have hworkers : workers.flatMap (fun w => (workerMetrics s w).filterMap Metric.expirations) = [] :=
    List.flatMap_eq_nil_iff.mpr (fun w _ => rfl)
  rw [filterMap_collect, hworkers]
  rfl

theorem collect_cpu : (collect s (some rows) expired (some workers)).filterMap Metric.cpu
    = workers.map (fun w => (w.id, if w.Gone s then 0 else w.cpu)) := by
  rw [filterMap_collect]
  exact List.map_eq_flatMap.symm

theorem collect_gpu : (collect s (some rows) expired (some workers)).filterMap Metric.gpu
    = workers.map (fun w => (w.id, if w.Gone s then 0 else w.gpu)) := by
  rw [filterMap_collect]
  exact List.map_eq_flatMap.symm

end Collect

/-! ## Expired leases -/

/-- Expired attempts stay. -/
theorem expirations_mono {db db' : Db} (hwf : db.WF) (h : db.Settles db') :
    expirations db ≤ expirations db' := by
  have hsub : (db.attempts.filter (fun a => a.state = .expired)) ⊆
      db'.attempts.filter (fun a => a.state = .expired) := by
    intro a ha
    obtain ⟨hmem, hstate⟩ := List.mem_filter.mp ha
    have hexpired : a.state = .expired := by simpa using hstate
    have hstays := h.attempt (hwf.attempts.find_of_mem hmem) (by rw [hexpired]; rfl)
    exact List.mem_filter.mpr ⟨Db.mem_of_attempt? hstays, hstate⟩
  have hnodup : (db.attempts.filter (fun a => a.state = .expired)).Nodup :=
    (List.Nodup.of_map _ hwf.attempts).filter _
  rw [expirations, expirations, List.countP_eq_length_filter, List.countP_eq_length_filter]
  exact (List.subperm_of_subset hnodup hsub).length_le

/-! ## Workers -/

/-- What placement has left of `total` of a worker, if the worker is active and was heard of
within two leases, and otherwise zero. -/
def shown (s : Store) (now : Time) (db : Db) (total : Resources → Int) (w : WorkerRec) : Int :=
  if w.state = .active ∧ now ≤ w.lastHeartbeatAt + seconds (2 * s.leaseSeconds)
  then total (w.capacity.sub (db.used w.id)) else 0

/-- The row of a worker, seen through one of its columns. -/
theorem shown_of_row {s : Store} {now : Time} {db : Db} {w : WorkerRec} (total : Resources → Int)
    {row : WorkerRow} (hstate : row.state = w.state) (hage : row.age = now - w.lastHeartbeatAt) :
    (if row.Gone s then 0 else total (w.capacity.sub (db.used w.id))) = shown s now db total w := by
  have hgone : row.Gone s ↔ ¬ (w.state = .active ∧ now ≤ w.lastHeartbeatAt + seconds (2 * s.leaseSeconds)) := by
    rw [WorkerRow.Gone, hstate, hage, not_and_or, Int.not_le]
    exact or_congr_right (by omega)
  rw [shown]
  by_cases hrow : row.Gone s
  · rw [if_pos hrow, if_neg (hgone.mp hrow)]
  · rw [if_neg hrow, if_pos (not_not.mp (mt hgone.mpr hrow))]

/-- The rows of the query, seen through one of their columns. -/
theorem shown_of_rows {s : Store} {clock : String → Time} {db : Db} {rows : List WorkerRow}
    (h : rows.Perm (workerRows clock db)) (total : Resources → Int) (column : WorkerRow → Int)
    (hcolumn : ∀ w : WorkerRec, column ⟨w.id, w.state, clock w.id - w.lastHeartbeatAt,
      w.cpu - (db.used w.id).cpu, w.gpu - (db.used w.id).gpu⟩ = total (w.capacity.sub (db.used w.id))) :
    (rows.map (fun w => (w.id, if w.Gone s then 0 else column w))).Perm
      (db.workers.map (fun w => (w.id, shown s (clock w.id) db total w))) := by
  refine (h.map _).trans (.of_eq ?_)
  rw [workerRows, List.map_map]
  refine List.map_congr_left (fun w _ => ?_)
  simp only [Function.comp_apply, hcolumn w]
  exact congrArg (Prod.mk w.id) (shown_of_row total rfl rfl)

section Available

variable [Sha256] {db : Db} {w : WorkerRec}

/-- Placement never has less than nothing left of a worker, or more than all of it. -/
theorem available_bounds (h : Reachable db) (hw : w ∈ db.workers) :
    Resources.zero.Le (w.capacity.sub (db.used w.id)) ∧
      (w.capacity.sub (db.used w.id)).Le w.capacity := by
  obtain ⟨u₁, u₂, u₃⟩ := h.placeable.wf.zero_le_used w.id
  obtain ⟨l₁, l₂, l₃⟩ := h.conserved.2 w hw
  simp only [Resources.zero] at u₁ u₂ u₃
  refine ⟨⟨?_, ?_, ?_⟩, ⟨?_, ?_, ?_⟩⟩ <;> simp only [Resources.sub, Resources.zero] <;> omega

/-- So no gauge does. -/
theorem shown_bounds (h : Reachable db) (hw : w ∈ db.workers) (s : Store) (now : Time) :
    (0 ≤ shown s now db Resources.cpu w ∧ shown s now db Resources.cpu w ≤ w.cpu) ∧
      0 ≤ shown s now db Resources.gpu w ∧ shown s now db Resources.gpu w ≤ w.gpu := by
  obtain ⟨⟨cpu₀, -, gpu₀⟩, ⟨cpu₁, -, gpu₁⟩⟩ := available_bounds h hw
  have hcapacity : w.capacity = ⟨w.cpu, w.memoryMB, w.gpu⟩ := rfl
  simp only [Resources.zero, hcapacity] at cpu₀ gpu₀ cpu₁ gpu₁
  have hbounds : ∀ (p : Prop) [Decidable p] (a b : Int), 0 ≤ a → a ≤ b →
      0 ≤ (if p then a else 0) ∧ (if p then a else 0) ≤ b := by
    intro p _ a b h₀ h₁
    split <;> omega
  exact ⟨hbounds _ _ _ cpu₀ cpu₁, hbounds _ _ _ gpu₀ gpu₁⟩

end Available

end Telemetry

/-- A scrape while the servers go on. The metrics for jobs are the numbers of jobs in each
state at its first query and add up to all of them. The counter of expired leases is sent
once, and it is at least what a scrape before shows and at most what one after shows. Each
worker has one gauge for cpu and one for gpu, with what placement has left of it. -/
theorem scrape_consistent [Sha256] (s : Store) (db : Db) (h : Reachable db) (ds ds' : List Call)
    (clock : String → Time) (rows : List (JobState × Nat)) (hrows : rows.Perm (Telemetry.stateRows db))
    (workers : List Telemetry.WorkerRow)
    (hworkers : workers.Perm (Telemetry.workerRows clock (exec ds' (exec ds db))))
    (metrics : List Telemetry.Metric)
    (hmetrics : metrics = Telemetry.collect s (some rows) (some (Telemetry.expirations (exec ds db)))
      (some workers)) :
    metrics.filterMap Telemetry.Metric.jobCount
        = Telemetry.states.map (fun state => (db.jobs.map JobRec.state).count state) ∧
      (metrics.filterMap Telemetry.Metric.jobCount).sum = db.jobs.length ∧
      (∃ n, metrics.filterMap Telemetry.Metric.expirations = [n] ∧ Telemetry.expirations db ≤ n ∧
        n ≤ Telemetry.expirations (exec ds' (exec ds db))) ∧
      (metrics.filterMap Telemetry.Metric.cpu).Perm ((exec ds' (exec ds db)).workers.map (fun w =>
        (w.id, Telemetry.shown s (clock w.id) (exec ds' (exec ds db)) Resources.cpu w))) ∧
      (metrics.filterMap Telemetry.Metric.gpu).Perm ((exec ds' (exec ds db)).workers.map (fun w =>
        (w.id, Telemetry.shown s (clock w.id) (exec ds' (exec ds db)) Resources.gpu w))) ∧
      ∀ w ∈ (exec ds' (exec ds db)).workers, ∀ now,
        (0 ≤ Telemetry.shown s now (exec ds' (exec ds db)) Resources.cpu w ∧
          Telemetry.shown s now (exec ds' (exec ds db)) Resources.cpu w ≤ w.cpu) ∧
        0 ≤ Telemetry.shown s now (exec ds' (exec ds db)) Resources.gpu w ∧
          Telemetry.shown s now (exec ds' (exec ds db)) Resources.gpu w ≤ w.gpu := by
  have hmid := h.exec ds
  have hlast := hmid.exec ds'
  have hcounts : metrics.filterMap Telemetry.Metric.jobCount
      = Telemetry.states.map (fun state => (db.jobs.map JobRec.state).count state) := by
    rw [hmetrics, Telemetry.collect_jobCounts]
    exact List.map_congr_left (fun state _ => Telemetry.counts_eq hrows state)
  refine ⟨hcounts, ?_, ⟨Telemetry.expirations (exec ds db), ?_, ?_, ?_⟩, ?_, ?_,
    fun w hw now => Telemetry.shown_bounds hlast hw s now⟩
  · rw [hcounts, Telemetry.sum_count_states, List.length_map]
  · rw [hmetrics, Telemetry.collect_expirations]
    rfl
  · exact Telemetry.expirations_mono h.placeable.wf (exec_settles h ds)
  · exact Telemetry.expirations_mono hmid.placeable.wf (exec_settles hmid ds')
  · rw [hmetrics, Telemetry.collect_cpu]
    exact Telemetry.shown_of_rows hworkers Resources.cpu Telemetry.WorkerRow.cpu (fun _ => rfl)
  · rw [hmetrics, Telemetry.collect_gpu]
    exact Telemetry.shown_of_rows hworkers Resources.gpu Telemetry.WorkerRow.gpu (fun _ => rfl)

/-- The attempt is started while the scrape goes on, which shows that one of the two cpus
of the worker is left. -/
theorem scrape_consistent_starting :
    .availableCpu "w" 1 ∈ Telemetry.collect Sample.server (some (Telemetry.stateRows Sample.leasedDb))
      (some (Telemetry.expirations (@exec Sample.digest [Sample.startCall] Sample.leasedDb)))
      (some (Telemetry.workerRows (fun _ => 5000) (@exec Sample.digest [] (@exec Sample.digest
        [Sample.startCall] Sample.leasedDb)))) := by
  obtain ⟨-, -, -, hcpu, -⟩ := @scrape_consistent Sample.digest Sample.server Sample.leasedDb
    Sample.leased_reachable [Sample.startCall] [] (fun _ => 5000) _ (.refl _) _ (.refl _) _ rfl
  have hstarted : @exec Sample.digest [] (@exec Sample.digest [Sample.startCall] Sample.leasedDb)
      = Sample.startedDb := by
    rw [← Sample.started_exec, @exec_append Sample.digest, Sample.leased_exec]
    rfl
  have hmem : ("w", (1 : Int)) ∈ Sample.startedDb.workers.map (fun w =>
      (w.id, Telemetry.shown Sample.server 5000 Sample.startedDb Resources.cpu w)) := by decide +kernel
  rw [← hstarted] at hmem
  obtain ⟨m, hm, hvalue⟩ := List.mem_filterMap.mp (hcpu.mem_iff.mpr hmem)
  cases m with
  | availableCpu id n =>
      cases hvalue
      exact hm
  | _ => cases hvalue

end Rungrid
