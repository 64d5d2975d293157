-- SUMMARY: The jobs of a worker's active attempts never need more than the worker has.
import Rungrid.Lifecycle.History

/-!
# Resource conservation

No counter of used resources is kept: `Db.used` is computed from the active
attempts. `Db.Conserved` is kept because only a lease adds an active attempt, and
it is checked against what is left; every other change takes load away or leaves
it, since the sizes of jobs and the capacities of workers never change.
-/

namespace Rungrid

namespace Resources

variable {a b c d : Resources}

theorem Le.refl (r : Resources) : r.Le r := ⟨Int.le_refl _, Int.le_refl _, Int.le_refl _⟩

theorem Le.trans (h : a.Le b) (h' : b.Le c) : a.Le c :=
  ⟨Int.le_trans h.1 h'.1, Int.le_trans h.2.1 h'.2.1, Int.le_trans h.2.2 h'.2.2⟩

theorem Le.add (h : a.Le b) (h' : c.Le d) : (a.add c).Le (b.add d) :=
  ⟨Int.add_le_add h.1 h'.1, Int.add_le_add h.2.1 h'.2.1, Int.add_le_add h.2.2 h'.2.2⟩

theorem Valid.zero_le (h : a.Valid) : Resources.zero.Le a := ⟨h.1, h.2.1, h.2.2.1⟩

theorem sum_append (rs ss : List Resources) : sum (rs ++ ss) = (sum rs).add (sum ss) := by
  induction rs with
  | nil => simp [sum, add, zero]
  | cons r rs ih =>
      simp only [sum, List.cons_append, List.foldr_cons] at ih ⊢
      rw [ih]
      simp only [add, Int.add_assoc]

theorem sum_map_le {α : Type} {f g : α → Resources} {xs : List α}
    (h : ∀ x ∈ xs, (f x).Le (g x)) : (sum (xs.map f)).Le (sum (xs.map g)) := by
  induction xs with
  | nil => exact Le.refl _
  | cons x xs ih =>
      exact (h x List.mem_cons_self).add (ih (fun y hy => h y (List.mem_cons_of_mem _ hy)))

theorem zero_le_sum {α : Type} {f : α → Resources} {xs : List α}
    (h : ∀ x ∈ xs, zero.Le (f x)) : zero.Le (sum (xs.map f)) := by
  induction xs with
  | nil => exact Le.refl _
  | cons x xs ih =>
      exact (h x List.mem_cons_self).add (ih (fun y hy => h y (List.mem_cons_of_mem _ hy)))

end Resources

/-! ## The load of a worker -/

section Load

variable {db db' : Db}

/-- What an attempt takes of a worker. -/
def Db.load (db : Db) (worker : String) (a : AttemptRec) : Resources :=
  if a.workerID = worker && a.state.active then
    ((db.job? a.jobID).map JobRec.resources).getD Resources.zero
  else Resources.zero

theorem Db.used_eq (db : Db) (worker : String) :
    db.used worker = Resources.sum (db.attempts.map (db.load worker)) := by
  rw [Db.used, Db.activeOn]
  induction db.attempts with
  | nil => rfl
  | cons a as ih =>
      rw [List.filter_cons, List.map_cons, Db.load]
      split
      · rw [List.filterMap_cons]
        cases hj : db.job? a.jobID with
        | none => simpa [Resources.sum, Resources.add, Resources.zero] using ih
        | some j => exact congrArg j.resources.add ih
      · simpa [Resources.sum, Resources.add, Resources.zero] using ih

theorem Db.WF.zero_le_load (h : db.WF) (worker : String) (a : AttemptRec) :
    Resources.zero.Le (db.load worker a) := by
  unfold Db.load
  split
  · cases hj : db.job? a.jobID with
    | none => exact .refl _
    | some j =>
        have hst := h.stored j (mem_of_job? hj)
        rw [Option.map_some, Option.getD_some, hst.resources]
        exact hst.valid.resources.1.zero_le
  · exact .refl _

theorem Db.WF.zero_le_used (h : db.WF) (worker : String) : Resources.zero.Le (db.used worker) := by
  rw [Db.used_eq]
  exact Resources.zero_le_sum (fun a _ => h.zero_le_load worker a)

/-- Jobs keep their size. -/
theorem Db.Grows.resources (hg : db.Grows db') (hwf : db.WF) {a : AttemptRec}
    (ha : a ∈ db.attempts) :
    (db'.job? a.jobID).map JobRec.resources = (db.job? a.jobID).map JobRec.resources := by
  obtain ⟨j, hj⟩ := Option.isSome_iff_exists.mp (hwf.attemptJob a ha)
  obtain ⟨j', hj', hf⟩ := hg.job hj
  rw [hj, hj', Option.map_some, Option.map_some, (JobRec.fixed_eq hf).2.2.2]

/-- The load does not grow when attempts are replaced without becoming active. -/
theorem Db.WF.used_le (hwf : db.WF) (hg : db.Grows db') {f : AttemptRec → AttemptRec}
    (hatt : db'.attempts = db.attempts.map f)
    (hf : ∀ a ∈ db.attempts, (f a).fixed = a.fixed ∧
      ((f a).state.active = true → a.state.active = true)) (worker : String) :
    (db'.used worker).Le (db.used worker) := by
  rw [Db.used_eq, Db.used_eq, hatt, List.map_map]
  refine Resources.sum_map_le (fun a ha => ?_)
  obtain ⟨hfix, hact⟩ := hf a ha
  obtain ⟨-, hjob, -, hworker, -⟩ := AttemptRec.fixed_eq hfix
  by_cases hnew : (f a).workerID = worker ∧ (f a).state.active = true
  · have hold : a.workerID = worker ∧ a.state.active = true :=
      ⟨hworker ▸ hnew.1, hact hnew.2⟩
    have hsame : db'.load worker (f a) = db.load worker a := by
      simp only [Db.load, hnew, hold, hjob, hg.resources hwf ha]
    rw [Function.comp_apply, hsame]
    exact .refl _
  · have hzero : db'.load worker (f a) = Resources.zero := by
      rw [Db.load, if_neg]
      simpa using hnew
    rw [Function.comp_apply, hzero]
    exact hwf.zero_le_load worker a

/-- A new attempt adds its load. -/
theorem Db.WF.used_append (hwf : db.WF) (hg : db.Grows db') {row : AttemptRec}
    (hatt : db'.attempts = db.attempts ++ [row]) (worker : String) :
    db'.used worker = (db.used worker).add (db'.load worker row) := by
  have hsame : db.attempts.map (db'.load worker) = db.attempts.map (db.load worker) := by
    apply List.map_congr_left
    intro a ha
    simp only [Db.load, hg.resources hwf ha]
  rw [Db.used_eq, Db.used_eq, hatt, List.map_append, Resources.sum_append, hsame, List.map_singleton]
  simp [Resources.sum, Resources.add, Resources.zero]

end Load

/-! ## Conservation -/

/-- Every worker has what its active attempts need. -/
def Db.Conserved (db : Db) : Prop := ∀ w ∈ db.workers, (db.used w.id).Le w.capacity

namespace Db.Conserved

variable {db db' : Db}

theorem mono (h : db.Conserved) (hwf : db.WF) (hg : db.Grows db') (hw : db'.workers = db.workers)
    {f : AttemptRec → AttemptRec} (hatt : db'.attempts = db.attempts.map f)
    (hf : ∀ a ∈ db.attempts, (f a).fixed = a.fixed ∧
      ((f a).state.active = true → a.state.active = true)) : db'.Conserved := by
  intro w hmem
  rw [hw] at hmem
  exact (hwf.used_le hg hatt hf w.id).trans (h w hmem)

/-- A change that leaves workers and attempts alone. -/
theorem frame (h : db.Conserved) (hwf : db.WF) (hg : db.Grows db')
    (hw : db'.workers = db.workers) (hatt : db'.attempts = db.attempts) : db'.Conserved :=
  h.mono hwf hg hw (f := fun a => a) (by simp [hatt]) (fun _ _ => ⟨rfl, fun hact => hact⟩)

/-- A change of one active attempt. -/
theorem put {a a' : AttemptRec} (h : db.Conserved) (hwf : db.WF) (hg : db.Grows db')
    (hw : db'.workers = db.workers) (ha : db.attempt? a.id = some a) (hact : a.state.active = true)
    (hatt : db'.attempts = Table.put AttemptRec.id a' db.attempts) (hfix : a'.fixed = a.fixed) :
    db'.Conserved := by
  refine h.mono hwf hg hw hatt (fun b hb => ?_)
  by_cases hid : b.id = a'.id
  · have hba : b = a := hwf.attempt_unique hb (mem_of_attempt? ha)
      (hid.trans (AttemptRec.fixed_eq hfix).1)
    rw [if_pos hid, hba]
    exact ⟨hfix, fun _ => hact⟩
  · rw [if_neg hid]
    exact ⟨rfl, fun h => h⟩

theorem touch {w w' : WorkerRec} {id : String} (h : db.Conserved) (hw : db.worker? id = some w)
    (hfix : w'.fixed = w.fixed) : (db.apply (.putWorker w')).Conserved := by
  intro v hv
  rcases Table.mem_put.mp hv with ⟨rfl, -⟩ | ⟨hv, -⟩
  · obtain ⟨hid, -, hcap⟩ := WorkerRec.fixed_eq hfix
    rw [hid, hcap]
    exact h w (mem_of_worker? hw)
  · exact h v hv

/-- A new worker has no attempts yet. -/
theorem register {r : Request} {o : Oracle} (h : db.Conserved) (hwf : db.WF)
    (hvalid : r.resources.Valid) (hnone : db.worker? r.workerID = none) :
    (db.apply (.insertWorker (r.newWorker o))).Conserved := by
  intro v hv
  rcases List.mem_append.mp hv with hv | hv
  · exact h v hv
  · obtain rfl := List.mem_singleton.mp hv
    have hidle : db.attempts.map (db.load r.workerID)
        = db.attempts.map (fun _ => Resources.zero) := by
      apply List.map_congr_left
      intro a ha
      have hne : a.workerID ≠ r.workerID := by
        intro heq
        have hsome := hwf.attemptWorker a ha
        rw [heq, hnone] at hsome
        cases hsome
      simp [Db.load, hne]
    have hused : db.used r.workerID = Resources.sum (db.attempts.map (fun _ => Resources.zero)) := by
      rw [Db.used_eq, hidle]
    have hle : (Resources.sum (db.attempts.map (fun _ => Resources.zero))).Le r.resources := by
      induction db.attempts with
      | nil => exact hvalid.zero_le
      | cons a as ih =>
          simpa [Resources.sum, Resources.add, Resources.zero] using ih
    exact hused ▸ hle

/-- A lease is within what is left of the worker. -/
theorem lease {j : JobRec} {w : WorkerRec} {worker : String} {row : AttemptRec} (h : db.Conserved)
    (hwf : db.WF) (hg : db.Grows db') (hws : db'.workers = db.workers)
    (hw : db.worker? worker = some w) (hj : db.job? j.id = some j)
    (hfit : j.resources.Le (w.capacity.sub (db.used worker))) (hworker : row.workerID = worker)
    (hjob : row.jobID = j.id) (hatt : db'.attempts = db.attempts ++ [row]) : db'.Conserved := by
  intro v hv
  rw [hws] at hv
  rw [hwf.used_append hg hatt]
  by_cases hid : v.id = worker
  · obtain rfl : v = w := hwf.workers.eq_of_key hv (mem_of_worker? hw) (hid.trans (worker?_id hw).symm)
    obtain ⟨j', hj', hfix⟩ := hg.job hj
    have hload : (db'.load v.id row).Le j.resources := by
      unfold Db.load
      split
      · rw [hjob, hj', Option.map_some, Option.getD_some, (JobRec.fixed_eq hfix).2.2.2]
        exact .refl _
      · have hst := hwf.stored j (mem_of_job? hj)
        exact hst.resources ▸ hst.valid.resources.1.zero_le
    rw [← hid] at hfit
    obtain ⟨h₁, h₂, h₃⟩ := hfit
    obtain ⟨l₁, l₂, l₃⟩ := hload
    simp only [Resources.sub] at h₁ h₂ h₃
    refine ⟨?_, ?_, ?_⟩ <;> simp only [Resources.add] <;> omega
  · have hzero : db'.load v.id row = Resources.zero := by
      rw [Db.load, if_neg]
      simp only [Bool.and_eq_true, decide_eq_true_eq, not_and]
      intro heq
      exact absurd (heq.symm.trans hworker) hid
    rw [hzero]
    simpa [Resources.add, Resources.zero] using h v hv

end Db.Conserved

theorem Effect.conserved {P : Oracle → Prop} {s : Store} {db db' : Db} {c : Change} (hwf : db.WF)
    (h : db.Conserved) (he : Effect P s db c db') : db'.Conserved := by
  have hg := he.grows
  cases he with
  | submitted => exact h.frame hwf hg rfl rfl
  | registered hvalid hnone _ => exact h.register hwf hvalid hnone
  | touched hw _ => exact h.touch hw rfl
  | drained hw => exact h.touch hw rfl
  | leased hw _ hj hp _ _ _ _ _ =>
      simp only [JobRec.placeable, Bool.and_eq_true, decide_eq_true_eq] at hp
      exact h.lease hwf hg rfl hw hj hp.2 rfl rfl rfl
  | renewed hf _ => exact h.put hwf hg rfl hf.attempt hf.active rfl rfl
  | started hf _ _ _ _ => exact h.put hwf hg rfl hf.attempt hf.active rfl rfl
  | noted => exact h.frame hwf hg rfl rfl
  | recorded => exact h.frame hwf hg rfl rfl
  | completed hf _ _ _ _ _ => exact h.put hwf hg rfl hf.attempt hf.active rfl rfl
  | failed hf _ _ _ _ => exact h.put hwf hg rfl hf.attempt hf.active rfl rfl
  | cancelled _ _ _ _ ha _ hact _ _ _ => exact h.put hwf hg rfl ha hact rfl rfl
  | cancelledIdle => exact h.frame hwf hg rfl rfl
  | retried => exact h.frame hwf hg rfl rfl
  | expired ha _ _ hexp _ _ _ =>
      simp only [AttemptRec.expiredAt, Bool.and_eq_true] at hexp
      exact h.put hwf hg rfl ha hexp.1 rfl rfl

theorem Reachable.conserved [Sha256] {db : Db} (h : Reachable db) : db.Sound ∧ db.Conserved :=
  h.inv (by intro w hw; cases hw) (fun _ h => h) (fun hwf h he => he.conserved hwf h)

end Rungrid
