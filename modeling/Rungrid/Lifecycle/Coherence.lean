-- SUMMARY: The state of every stored job agrees with its attempts, and the attempts keep within the budget.
import Rungrid.Lifecycle.History

/-!
# Jobs and attempts

The coherence of the views, read off the tables: which attempt of a job can be
active, what the states of the job say about the highest-numbered attempt, and
how the attempts are numbered.
-/

namespace Rungrid

/-- The highest-numbered attempt of a job. -/
def Db.Highest (db : Db) (job : Uuid) (a : AttemptRec) : Prop :=
  a ∈ db.attemptsOf job ∧ ∀ b ∈ db.attemptsOf job, b ≠ a → b.attemptNumber < a.attemptNumber

/-- The states of a job and of an attempt are the same active state. -/
def JobState.same (s : JobState) (a : AttemptState) : Prop :=
  (s = .leased ∧ a = .leased) ∨ (s = .running ∧ a = .running)

/-- The attempt failed or its lease expired. -/
def AttemptRec.Spent (a : AttemptRec) : Prop := a.state = .failed ∨ a.state = .expired

theorem AttemptRec.spent_iff {a : AttemptRec} : a.state.spent = true ↔ a.Spent := by
  unfold AttemptRec.Spent
  cases a.state <;> simp [AttemptState.spent]

/-- How the state of a job and its attempts agree. -/
structure Db.JobCoherent (db : Db) (j : JobRec) : Prop where
  active_iff : (∃ a ∈ db.attemptsOf j.id, a.state.active = true) ↔ j.state.active = true
  active : j.state.active = true → ∃ a, db.Highest j.id a ∧ j.state.same a.state ∧
    ∀ b ∈ db.attemptsOf j.id, b.state.active = true → b = a
  succeeded : j.state = .succeeded → ∃ a, db.Highest j.id a ∧ a.state = .succeeded
  only_succeeded : ∀ a ∈ db.attemptsOf j.id, a.state = .succeeded → j.state = .succeeded
  failed : j.state = .failed → ∃ a, db.Highest j.id a ∧ a.Spent
  queued : j.state = .queued → db.attemptsOf j.id = [] ∨ ∃ a, db.Highest j.id a ∧ a.Spent
  past : ∀ a ∈ db.attemptsOf j.id, ¬ db.Highest j.id a → a.Spent

/-! ## The attempts of a job in order -/

section Shape

variable {db : Db} {j : JobRec}

theorem Db.numbers (h : (db.view j).Coherent) :
    (db.attemptsOf j.id).map AttemptRec.attemptNumber = View.countUp (db.attemptsOf j.id).length := by
  have hn := h.numbers
  simp only [Db.view, List.map_map, List.length_map] at hn
  exact hn

theorem View.mem_countUp {n : Nat} {i : Int} : i ∈ View.countUp n ↔ 1 ≤ i ∧ i ≤ n := by
  simp only [View.countUp, List.mem_map, List.mem_range]
  constructor
  · rintro ⟨k, hk, rfl⟩
    omega
  · intro hi
    exact ⟨(i - 1).toNat, by omega, by omega⟩

theorem View.le_foldr_max {l : List Int} {x : Int} (h : x ∈ l) : x ≤ l.foldr max 0 := by
  induction l with
  | nil => cases h
  | cons y l ih =>
      rcases List.mem_cons.mp h with rfl | h
      · exact le_max_left _ _
      · exact (ih h).trans (le_max_right _ _)

theorem Db.lt_nextNumber {db : Db} {a : AttemptRec} {job : Uuid} (ha : a ∈ db.attempts)
    (hjob : a.jobID = job) : a.attemptNumber < db.nextNumber job := by
  have hmem : a.attemptNumber ∈ (db.attemptsOf job).map AttemptRec.attemptNumber :=
    List.mem_map_of_mem (Db.mem_attemptsOf.mpr ⟨ha, hjob⟩)
  exact Int.lt_add_one_of_le (View.le_foldr_max hmem)

theorem Db.nextNumber_eq (h : (db.view j).Coherent) :
    db.nextNumber j.id = (db.attemptsOf j.id).length + 1 := by
  have hnext : (db.view j).nextNumber = db.nextNumber j.id := by
    rw [View.nextNumber, Db.nextNumber, Db.view, List.map_map]
    rfl
  rw [← hnext, h.nextNumber, Db.view, List.length_map]

/-- A job has no attempts, or it has a last one that is its highest-numbered one,
and the earlier ones are spent. -/
theorem Db.attempts_shape (h : (db.view j).Coherent) :
    (db.attemptsOf j.id = [] ∧ j.state.agrees none = true) ∨
      ∃ pre a, db.attemptsOf j.id = pre ++ [a] ∧ (∀ b ∈ pre, b.Spent) ∧ db.Highest j.id a ∧
        j.state.agrees (some a.state) = true := by
  rcases List.eq_nil_or_concat (db.attemptsOf j.id) with hnil | ⟨pre, a, hshape⟩
  · left
    have hlast := h.last
    simp only [Db.view, hnil, List.map_nil, List.getLast?_nil, Option.map_none] at hlast
    exact ⟨hnil, hlast⟩
  · right
    rw [List.concat_eq_append] at hshape
    have hview : (db.view j).attempts = pre.map AttemptRec.view ++ [a.view] := by
      rw [Db.view, hshape, List.map_append, List.map_singleton]
    obtain ⟨hpast, hlast⟩ := h.last_of_concat hview
    have hnumber : a.attemptNumber = pre.length + 1 := by
      have hn := h.number_last hview
      rwa [List.length_map] at hn
    have hnumbers := Db.numbers h
    rw [hshape, List.map_append, List.length_append, List.length_singleton,
      View.countUp_succ] at hnumbers
    have hpre := (List.append_inj' hnumbers rfl).1
    refine ⟨pre, a, hshape, ?_, ⟨by rw [hshape]; simp, ?_⟩, hlast⟩
    · intro b hb
      exact AttemptRec.spent_iff.mp (hpast b.view (List.mem_map_of_mem hb))
    · intro b hb hne
      rw [hshape, List.mem_append, List.mem_singleton] at hb
      rcases hb with hb | rfl
      · have hmem : b.attemptNumber ∈ View.countUp pre.length := by
          rw [← hpre]
          exact List.mem_map_of_mem hb
        have := View.mem_countUp.mp hmem
        omega
      · exact absurd rfl hne

end Shape

theorem AttemptRec.Spent.not_active {a : AttemptRec} (h : a.Spent) :
    a.state.active = false ∧ a.state ≠ .succeeded := by
  rcases h with h | h <;> simp [h, AttemptState.active]

theorem Db.jobCoherent {db : Db} {j : JobRec} (h : (db.view j).Coherent) : db.JobCoherent j := by
  rcases Db.attempts_shape h with ⟨hnil, hagree⟩ | ⟨pre, a, hshape, hpre, hhigh, hagree⟩
  · constructor <;> rcases JobState.agrees_none hagree with hs | hs <;>
      simp [hs, hnil, JobState.active]
  · have hmem : ∀ b ∈ db.attemptsOf j.id, b.Spent ∨ b = a := by
      intro b hb
      rw [hshape, List.mem_append, List.mem_singleton] at hb
      exact hb.imp (hpre b) (fun heq => heq)
    have hactive : ∀ b ∈ db.attemptsOf j.id, b.state.active = true → b = a := by
      intro b hb hact
      refine (hmem b hb).resolve_left (fun hspent => ?_)
      rw [hspent.not_active.1] at hact
      cases hact
    refine ⟨⟨?_, ?_⟩, ?_, ?_, ?_, ?_, ?_, ?_⟩
    · rintro ⟨b, hb, hact⟩
      rwa [hactive b hb hact, JobState.agrees_active hagree] at hact
    · intro hs
      exact ⟨a, hhigh.1, (JobState.agrees_active hagree).trans hs⟩
    · intro hs
      exact ⟨a, hhigh, JobState.agrees_same hagree hs, hactive⟩
    · intro hs
      exact ⟨a, hhigh, (JobState.agrees_succeeded hagree).mpr hs⟩
    · intro b hb hs
      rw [(hmem b hb).resolve_left (fun hspent => hspent.not_active.2 hs)] at hs
      exact (JobState.agrees_succeeded hagree).mp hs
    · intro hs
      rw [hs] at hagree
      exact ⟨a, hhigh, AttemptRec.spent_iff.mp hagree⟩
    · intro hs
      rw [hs] at hagree
      exact .inr ⟨a, hhigh, AttemptRec.spent_iff.mp hagree⟩
    · intro b hb hnot
      refine (hmem b hb).resolve_right (fun heq => hnot ?_)
      rw [heq]
      exact hhigh

theorem Db.Logged.coherent {db : Db} (h : db.Logged) (hwf : db.WF) {j : JobRec} (hj : j ∈ db.jobs) :
    (db.view j).Coherent :=
  (h j hj).coherent (hwf.stored j hj).valid

/-- In every reachable state every job agrees with its attempts, and no active
attempt belongs to a job that the reaper does not look at. -/
theorem jobs_coherent [Sha256] (db : Db) (h : Reachable db) :
    (∀ j ∈ db.jobs, db.JobCoherent j) ∧
      ∀ a ∈ db.attempts, a.state.active = true →
        ∃ j, db.job? a.jobID = some j ∧ j.state.active = true := by
  obtain ⟨hsound, hlogged⟩ := h.logged
  have hall : ∀ j ∈ db.jobs, db.JobCoherent j := fun j hj =>
    Db.jobCoherent (hlogged.coherent hsound.wf hj)
  refine ⟨hall, fun a ha hact => ?_⟩
  obtain ⟨j, hj⟩ := Option.isSome_iff_exists.mp (hsound.wf.attemptJob a ha)
  have hmem : a ∈ db.attemptsOf j.id := Db.mem_attemptsOf.mpr ⟨ha, (Db.job?_id hj).symm⟩
  exact ⟨j, hj, (hall j (Db.mem_of_job? hj)).active_iff.mp ⟨a, hmem, hact⟩⟩

theorem jobs_coherent_sample : Sample.leasedDb.JobCoherent Sample.jobRow ∧
    ∃ j, Sample.leasedDb.job? Sample.jobID = some j ∧ j.state.active = true := by
  have h := @jobs_coherent Sample.digest Sample.leasedDb Sample.leased_reachable
  exact ⟨h.1 Sample.jobRow (by simp [Sample.leasedDb]),
    h.2 Sample.attempt (by simp [Sample.leasedDb]) rfl⟩

end Rungrid
