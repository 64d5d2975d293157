-- SUMMARY: How often a job can change: a potential that every transition spends, and the bound it gives for whole runs.
import Mathlib.Algebra.Order.BigOperators.Group.List
import Mathlib.Algebra.Order.Ring.Nat
import Rungrid.Lifecycle.Budget

/-!
# The work of a job

No attempt changes more than three times: it is leased, it is started, and it ends. A
cancellation ends the active attempt, or it comes while the job waits and has an attempt
left to spend. `View.work` counts what has been spent this way. A retry is paid for by
its event.
-/

namespace Rungrid

/-- The most changes that lead an attempt to its state. -/
def AttemptState.work : AttemptState → Nat
  | .leased => 1
  | .running => 2
  | _ => 3

theorem AttemptState.work_le (s : AttemptState) : s.work ≤ 3 := by
  cases s <;> decide

namespace View

/-- One if a transition to `v'` changes the view. -/
def change (v v' : View) : Nat := if v' = v then 0 else 1

/-- The number of events that change the view. -/
def changes (v : View) : List EventRec → Nat
  | [] => 0
  | e :: es => v.change (v.replay e) + (v.replay e).changes es

theorem change_self (v : View) : v.change v = 0 := if_pos rfl

theorem change_le (v v' : View) : v.change v' ≤ 1 := by
  unfold change
  split <;> omega

theorem changes_concat (v : View) (es : List EventRec) (e : EventRec) :
    v.changes (es ++ [e]) =
      v.changes es + (es.foldl View.replay v).change ((es.foldl View.replay v).replay e) := by
  induction es generalizing v with
  | nil => simp only [List.nil_append, changes, List.foldl_nil, Nat.zero_add, Nat.add_zero]
  | cons d es ih => simp only [List.cons_append, changes, ih, List.foldl_cons, Nat.add_assoc]

/-! ## The potential -/

/-- The changes of the attempts. -/
def spent (v : View) : Nat := (v.attempts.map (fun a => a.state.work)).sum

/-- The job was cancelled with an attempt left. -/
def idleCancel (v : View) : Nat :=
  if v.state = .cancelled ∧ (v.attempts.length : Int) < v.maxAttempts then 1 else 0

def work (v : View) : Nat := v.spent + v.idleCancel

theorem spent_le (v : View) : v.spent ≤ 3 * v.attempts.length := by
  have hsum := List.sum_le_card_nsmul (v.attempts.map (fun a => a.state.work)) 3
    (fun n hn => by
      obtain ⟨a, -, rfl⟩ := List.mem_map.mp hn
      exact a.state.work_le)
  rw [List.length_map, Nat.nsmul_eq_mul, Nat.mul_comm] at hsum
  exact hsum

theorem idleCancel_eq_zero {v : View} (h : v.state ≠ .cancelled) : v.idleCancel = 0 :=
  if_neg (fun hc => h hc.1)

namespace Coherent

variable {v : View} {a : AttemptView}

/-- All the work of a job is within three changes for each attempt of its budget. -/
theorem work_le (h : Coherent v) : (v.work : Int) ≤ 3 * v.maxAttempts := by
  have hspent := v.spent_le
  have hbudget := h.budget
  unfold work idleCancel
  split
  · rename_i hidle
    have hleft := hidle.2
    omega
  · omega

/-- A job with an active attempt is not cancelled. -/
theorem not_cancelled (h : Coherent v) (hfind : v.find a.id = some a) (hact : a.state.active = true) :
    v.state ≠ .cancelled := by
  obtain ⟨-, -, ⟨hs, -⟩ | ⟨hs, -⟩⟩ := h.active_last (Table.mem_of_find hfind) hact <;>
    rw [hs] <;> decide

/-- The move of the active attempt spends the difference of its states. -/
theorem spent_set {state : AttemptState} {next : JobState} (h : Coherent v)
    (hfind : v.find a.id = some a) (hact : a.state.active = true) :
    (v.set a state next).spent + a.state.work = v.spent + state.work := by
  obtain ⟨pre, hv, -⟩ := h.active_last (Table.mem_of_find hfind) hact
  have hkeyed := h.keyed
  rw [hv] at hkeyed
  have hput : (v.set a state next).attempts = pre ++ [{ a with state := state }] := by
    rw [View.set, hv]
    exact Table.put_concat hkeyed rfl
  rw [spent, hput, spent, hv]
  simp only [List.map_append, List.map_singleton, List.sum_append, List.sum_singleton]
  omega

theorem work_set {state : AttemptState} {next : JobState} (h : Coherent v)
    (hfind : v.find a.id = some a) (hact : a.state.active = true) (hlt : a.state.work < state.work) :
    1 + v.work ≤ (v.set a state next).work := by
  have hspent : (v.set a state next).spent + a.state.work = v.spent + state.work := h.spent_set hfind hact
  have hidle := idleCancel_eq_zero (h.not_cancelled hfind hact)
  unfold work
  omega

theorem work_active {state : AttemptState} (hact : state.active = true) : state.work < 3 := by
  cases state <;> first | decide | cases hact

/-- A cancellation ends the active attempt, or it uses the attempt that is left. -/
theorem work_cancel (h : Coherent v) (hs : v.state ≠ .succeeded) (hf : v.state ≠ .failed)
    (hc : v.state ≠ .cancelled) : 1 + v.work ≤ v.cancel.work := by
  have hidle := idleCancel_eq_zero hc
  have hle : ∀ b : AttemptView,
      b.state.work ≤ (if b.state.active then { b with state := .cancelled } else b).state.work := by
    intro b
    split
    · exact b.state.work_le
    · exact Nat.le_refl _
  have hspent : v.spent ≤ v.cancel.spent := by
    simp only [spent, View.cancel, List.map_map]
    exact List.sum_le_sum (fun b _ => hle b)
  by_cases hleft : (v.attempts.length : Int) < v.maxAttempts
  · have hone : v.cancel.idleCancel = 1 := if_pos ⟨rfl, by simpa [View.cancel] using hleft⟩
    unfold work
    omega
  · -- Without an attempt left the job is not queued, so its last attempt is active.
    have hactive : v.state.active = true := by
      cases hstate : v.state with
      | queued => exact absurd (h.queued hstate) hleft
      | leased => rfl
      | running => rfl
      | succeeded => exact absurd hstate hs
      | failed => exact absurd hstate hf
      | cancelled => exact absurd hstate hc
    have hlt : v.spent < v.cancel.spent := by
      rcases List.eq_nil_or_concat v.attempts with hnil | ⟨pre, a, hv⟩
      · have hlast := h.last
        rw [hnil] at hlast
        rcases JobState.agrees_none hlast with hq | hq <;> rw [hq] at hactive <;> cases hactive
      · rw [List.concat_eq_append] at hv
        have hact : a.state.active = true :=
          (JobState.agrees_active (h.last_of_concat hv).2).trans hactive
        have hpre := List.sum_le_sum (l := pre) (fun b _ => hle b)
        have hlast := work_active hact
        simp only [spent, View.cancel, hv, List.map_append, List.map_map, List.map_singleton, List.sum_append,
          List.sum_singleton, hact, if_true]
        exact Nat.add_lt_add_of_le_of_lt hpre hlast
    unfold work
    omega

/-- Every transition that changes the view spends work, but for a retry. -/
theorem work_step {v' : View} {e : EventRec} (h : Coherent v) (hs : Step v e v') :
    v.change v' + v.work ≤ v'.work + if e.isRetry then 1 else 0 := by
  have hone := v.change_le v'
  have hspends : 1 + v.work ≤ v'.work →
      v.change v' + v.work ≤ v'.work + if e.isRetry then 1 else 0 := fun hwork => by omega
  cases hs with
  | submitted | restarted | reported | recancelled => simp [change_self]
  | @leased id requestID worker _ _ _ hq _ =>
      refine hspends ?_
      have hidle := idleCancel_eq_zero (v := v) (by rw [hq]; decide)
      have hspent : (v.lease id v.nextNumber worker).spent = v.spent + 1 := by
        simp [spent, View.lease, AttemptState.work]
      unfold work
      omega
  | started _ _ hfind hst =>
      exact hspends (h.work_set hfind (by rw [hst]; rfl) (by rw [hst]; decide))
  | completed _ _ hfind hst =>
      exact hspends (h.work_set hfind (by rw [hst]; rfl) (by rw [hst]; decide))
  | failed _ _ hfind hst =>
      exact hspends (h.work_set hfind (by rw [hst]; rfl) (by rw [hst]; decide))
  | expired _ _ hfind hact => exact hspends (h.work_set hfind hact (work_active hact))
  | cancelled _ hs hf hc => exact hspends (h.work_cancel hs hf hc)
  | retried hretry hst =>
      have hidle := idleCancel_eq_zero (v := v) (by rw [hst]; decide)
      have hspent : v.retry.spent = v.spent := rfl
      have hevent : e.isRetry = true := by simpa [EventRec.isRetry] using hretry
      rw [if_pos hevent]
      unfold work
      omega

end Coherent

/-- The changes along a trace are paid for by the work and the retries. -/
theorem Trace.changes {d : Job} {es : List EventRec} {v : View} (hd : d.Valid)
    (h : Trace (initial d) es v) :
    (initial d).changes es ≤ v.work + es.countP EventRec.isRetry := by
  induction h with
  | nil => exact Nat.zero_le _
  | @snoc es v v' e htrace hstep ih =>
      have hwork := (htrace.coherent hd).work_step hstep
      rw [changes_concat, htrace.replay, hstep.replay, List.countP_append, List.countP_singleton]
      omega

end View

/-- After every run the events of a job that changed it are at most three for each attempt
of its definition and four for each accepted retry, however many requests were made. -/
theorem job_changes_bounded [Sha256] (cs : List Call) (j : JobRec) (hj : j ∈ (exec cs Db.empty).jobs) :
    ((View.initial j.definition).changes ((exec cs Db.empty).eventsOf j.id) : Int) ≤
      3 * j.definition.maxAttempts + 4 * acceptedRetries j.id cs := by
  obtain ⟨hsound, hlog⟩ := Reachable.logged ⟨cs, rfl⟩
  have htrace := hlog j hj
  have hretries := exec_retries Db.sound_empty cs j.id
  have hzero : Db.empty.retries j.id = 0 := rfl
  rw [hzero, Nat.zero_add] at hretries
  have hchanges := htrace.changes (hsound.wf.stored j hj).valid
  have hwork := (hlog.coherent hsound.wf hj).work_le
  have hbudget := htrace.budget
  rw [acceptedRetries, ← hretries]
  unfold Db.retries
  have hmax : (View.initial j.definition).maxAttempts = j.definition.maxAttempts := rfl
  rw [hmax] at hbudget
  omega

theorem job_changes_bounded_sample :
    ((View.initial Sample.job).changes (Sample.leasedDb.eventsOf Sample.jobID) : Int) ≤
      3 * 3 + 4 * @acceptedRetries Sample.digest Sample.jobID Sample.leased := by
  have h := @job_changes_bounded Sample.digest Sample.leased Sample.jobRow
  rw [Sample.leased_exec] at h
  exact h (by simp [Sample.leasedDb])

end Rungrid
