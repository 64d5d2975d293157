-- SUMMARY: The abstract life of one job: its view, the transitions its events name, and the coherence they keep.
import Rungrid.Store.Schema

/-!
# The life of a job

A `View` is what the lifecycle of one job is about: its state, its budget and its
attempts in the order they were made. `View.replay` is the transition an event
stands for, computed from the view and the event alone. `View.Step` is the same
transition with the guard under which the store makes it.

`View.Coherent` relates the state of a job to its attempts. Every step keeps it,
so it holds of every view that a trace of steps reaches.
-/

namespace Rungrid

structure AttemptView where
  id : Uuid
  number : Int
  worker : String
  state : AttemptState
deriving DecidableEq

structure View where
  state : JobState
  maxAttempts : Int
  attempts : List AttemptView
deriving DecidableEq

namespace View

/-- A job as it is submitted. -/
def initial (definition : Job) : View := ⟨.queued, definition.maxAttempts, []⟩

def find (v : View) (id : Uuid) : Option AttemptView := Table.find AttemptView.id id v.attempts

/-- The number the next attempt gets. -/
def nextNumber (v : View) : Int := (v.attempts.map AttemptView.number).foldr max 0 + 1

/-! ## Transitions -/

def lease (v : View) (id : Uuid) (number : Int) (worker : String) : View :=
  { v with state := .leased, attempts := v.attempts ++ [⟨id, number, worker, .leased⟩] }

/-- Move an attempt and its job. -/
def set (v : View) (a : AttemptView) (state : AttemptState) (next : JobState) : View :=
  { v with
    state := next
    attempts := Table.put AttemptView.id { a with state := state } v.attempts }

def cancel (v : View) : View :=
  { v with
    state := .cancelled
    attempts := v.attempts.map (fun a => if a.state.active then { a with state := .cancelled } else a) }

def retry (v : View) : View := { v with state := .queued, maxAttempts := v.maxAttempts + 1 }

/-- The transition an event stands for. A `FailAttempt` or `LEASE_EXPIRED` event
does not say whether the job was queued again: the attempt's number and the
budget decide that. A `cancel` event does not name the attempt it ended: it is
the active one. -/
def replay (v : View) (e : EventRec) : View :=
  match e.eventType, e.attemptID, e.payload with
  | .leased, some id, .leased _ worker number => v.lease id number worker
  | .method .startAttempt, some id, _ =>
      match v.find id with
      | some a => if a.state = .leased then v.set a .running .running else v
      | none => v
  | .method .completeAttempt, some id, _ =>
      match v.find id with
      | some a => v.set a .succeeded .succeeded
      | none => v
  | .method .failAttempt, some id, _ =>
      match v.find id with
      | some a => v.set a .failed (retryState a.number v.maxAttempts)
      | none => v
  | .leaseExpired, some id, _ =>
      match v.find id with
      | some a => v.set a .expired (retryState a.number v.maxAttempts)
      | none => v
  | .action .cancel, _, _ => if v.state = .cancelled then v else v.cancel
  | .action .retry, _, _ => v.retry
  | _, _, _ => v

/-- The transitions of the store, each with its guard. -/
inductive Step : View → EventRec → View → Prop where
  | submitted {v : View} {e : EventRec} : e.eventType = .submitted → Step v e v
  | leased {v : View} {e : EventRec} {id : Uuid} {requestID worker : String} :
      e.eventType = .leased → e.attemptID = some id →
      e.payload = .leased requestID worker v.nextNumber → v.state = .queued →
      v.find id = none → Step v e (v.lease id v.nextNumber worker)
  | started {v : View} {e : EventRec} {a : AttemptView} :
      e.eventType = .method .startAttempt → e.attemptID = some a.id → v.find a.id = some a →
      a.state = .leased → Step v e (v.set a .running .running)
  | restarted {v : View} {e : EventRec} {a : AttemptView} :
      e.eventType = .method .startAttempt → e.attemptID = some a.id → v.find a.id = some a →
      a.state = .running → Step v e v
  | reported {v : View} {e : EventRec} : e.eventType = .method .reportProgress → Step v e v
  | completed {v : View} {e : EventRec} {a : AttemptView} :
      e.eventType = .method .completeAttempt → e.attemptID = some a.id → v.find a.id = some a →
      a.state = .running → Step v e (v.set a .succeeded .succeeded)
  | failed {v : View} {e : EventRec} {a : AttemptView} :
      e.eventType = .method .failAttempt → e.attemptID = some a.id → v.find a.id = some a →
      a.state = .running → Step v e (v.set a .failed (retryState a.number v.maxAttempts))
  | expired {v : View} {e : EventRec} {a : AttemptView} :
      e.eventType = .leaseExpired → e.attemptID = some a.id → v.find a.id = some a →
      a.state.active = true → Step v e (v.set a .expired (retryState a.number v.maxAttempts))
  | cancelled {v : View} {e : EventRec} :
      e.eventType = .action .cancel → v.state ≠ .succeeded → v.state ≠ .failed →
      v.state ≠ .cancelled → Step v e v.cancel
  | recancelled {v : View} {e : EventRec} :
      e.eventType = .action .cancel → v.state = .cancelled → Step v e v
  | retried {v : View} {e : EventRec} :
      e.eventType = .action .retry → v.state = .failed → Step v e v.retry

/-- A step is the transition its event stands for. -/
theorem Step.replay {v v' : View} {e : EventRec} (h : Step v e v') : v.replay e = v' := by
  cases h <;> simp_all [View.replay]

/-- The views a sequence of events leads to. -/
inductive Trace (v₀ : View) : List EventRec → View → Prop where
  | nil : Trace v₀ [] v₀
  | snoc {es : List EventRec} {v v' : View} {e : EventRec} :
      Trace v₀ es v → Step v e v' → Trace v₀ (es ++ [e]) v'

theorem Trace.replay {v₀ v : View} {es : List EventRec} (h : Trace v₀ es v) :
    es.foldl View.replay v₀ = v := by
  induction h with
  | nil => rfl
  | snoc _ hstep ih => rw [List.foldl_append, ih, List.foldl_cons, List.foldl_nil, hstep.replay]

/-! ## Coherence -/

end View

/-- The attempt ended without deciding its job. -/
def AttemptState.spent : AttemptState → Bool
  | .failed | .expired => true
  | _ => false

/-- The states a job can have when its last attempt has the given one. -/
def JobState.agrees : JobState → Option AttemptState → Bool
  | .queued, none => true
  | .queued, some a => a.spent
  | .leased, some a => a = .leased
  | .running, some a => a = .running
  | .succeeded, some a => a = .succeeded
  | .failed, some a => a.spent
  | .cancelled, none => true
  | .cancelled, some a => a.spent || a = .cancelled
  | _, none => false

namespace JobState

variable {s : JobState} {a : AttemptState}

theorem agrees_none (h : s.agrees none = true) : s = .queued ∨ s = .cancelled := by
  cases s <;> simp [agrees] at h ⊢

theorem agrees_active (h : s.agrees (some a) = true) : a.active = s.active := by
  cases s <;> cases a <;> first | rfl | simp [agrees, AttemptState.spent] at h

theorem agrees_succeeded (h : s.agrees (some a) = true) : a = .succeeded ↔ s = .succeeded := by
  cases s <;> cases a <;> simp [agrees, AttemptState.spent] at h ⊢

/-- A job in an active state has the same state as its last attempt. -/
theorem agrees_same (h : s.agrees (some a) = true) (hact : s.active = true) :
    s = .leased ∧ a = .leased ∨ s = .running ∧ a = .running := by
  cases s <;> simp [agrees, active] at h hact ⊢ <;> exact h

end JobState

theorem AttemptState.spent_not_active {a : AttemptState} (h : a.spent = true) :
    a.active = false := by
  cases a <;> first | rfl | cases h

namespace View

/-- The numbers `1..n`. -/
def countUp (n : Nat) : List Int := (List.range n).map (fun i : Nat => (i : Int) + 1)

@[simp] theorem countUp_zero : countUp 0 = [] := rfl

theorem countUp_succ (n : Nat) : countUp (n + 1) = countUp n ++ [(n : Int) + 1] := by
  simp [countUp, List.range_succ]

/-- The state of a job agrees with its attempts: the attempts are numbered in
order within the budget, all but the last are spent, and the last one is what the
state says. -/
structure Coherent (v : View) : Prop where
  keyed : Table.Keyed AttemptView.id v.attempts
  numbers : v.attempts.map AttemptView.number = countUp v.attempts.length
  past : ∀ a ∈ v.attempts.dropLast, a.state.spent = true
  last : v.state.agrees (v.attempts.getLast?.map AttemptView.state) = true
  budget : (v.attempts.length : Int) ≤ v.maxAttempts
  queued : v.state = .queued → (v.attempts.length : Int) < v.maxAttempts
  failed : v.state = .failed → (v.attempts.length : Int) = v.maxAttempts

namespace Coherent

variable {v : View} {a : AttemptView}

theorem initial {d : Job} (h : d.Valid) : Coherent (View.initial d) := by
  have := h.bounds
  constructor <;> simp [View.initial, Table.Keyed, JobState.agrees] <;> omega

private theorem foldr_max_countUp (n : Nat) (c : Int) (hc : 0 ≤ c) :
    (countUp n).foldr max c = max (n : Int) c := by
  induction n generalizing c with
  | zero =>
      simp only [countUp_zero, List.foldr_nil]
      omega
  | succ n ih =>
      rw [countUp_succ, List.foldr_append, List.foldr_cons, List.foldr_nil, ih _ (by omega)]
      omega

theorem nextNumber (h : Coherent v) : v.nextNumber = v.attempts.length + 1 := by
  rw [View.nextNumber, h.numbers, foldr_max_countUp _ _ (Int.le_refl 0)]
  omega

theorem number_last {pre : List AttemptView} (h : Coherent v) (hv : v.attempts = pre ++ [a]) :
    a.number = pre.length + 1 := by
  have hn := h.numbers
  rw [hv, List.length_append, List.length_singleton, countUp_succ, List.map_append] at hn
  have hlast := (List.append_inj' hn rfl).2
  simpa using hlast

/-- The last attempt of a job, with what the state of the job says about it. -/
theorem last_of_concat {pre : List AttemptView} (h : Coherent v) (hv : v.attempts = pre ++ [a]) :
    (∀ b ∈ pre, b.state.spent = true) ∧ v.state.agrees (some a.state) = true := by
  refine ⟨?_, ?_⟩
  · have hp := h.past
    rwa [hv, List.dropLast_concat] at hp
  · have hl := h.last
    rwa [hv, List.getLast?_concat] at hl

/-- An active attempt is the last one, and the state of the job is its state. -/
theorem active_last (h : Coherent v) (ha : a ∈ v.attempts) (hact : a.state.active = true) :
    ∃ pre, v.attempts = pre ++ [a] ∧
      (v.state = .leased ∧ a.state = .leased ∨ v.state = .running ∧ a.state = .running) := by
  rcases List.eq_nil_or_concat v.attempts with hnil | ⟨pre, b, hv⟩
  · rw [hnil] at ha
    cases ha
  · rw [List.concat_eq_append] at hv
    obtain ⟨hpre, hb⟩ := h.last_of_concat hv
    rw [hv, List.mem_append, List.mem_singleton] at ha
    rcases ha with ha | rfl
    · rw [AttemptState.spent_not_active (hpre a ha)] at hact
      cases hact
    · exact ⟨pre, hv, JobState.agrees_same hb (JobState.agrees_active hb ▸ hact)⟩

/-- What has to be shown of a view with a last attempt. -/
private theorem of_concat {pre : List AttemptView} (hv : v.attempts = pre ++ [a])
    (hkeyed : Table.Keyed AttemptView.id (pre ++ [a]))
    (hnum : (pre ++ [a]).map AttemptView.number = countUp (pre ++ [a]).length)
    (hpre : ∀ b ∈ pre, b.state.spent = true) (hlast : v.state.agrees (some a.state) = true)
    (hbudget : (pre.length : Int) + 1 ≤ v.maxAttempts)
    (hqueued : v.state = .queued → (pre.length : Int) + 1 < v.maxAttempts)
    (hfailed : v.state = .failed → (pre.length : Int) + 1 = v.maxAttempts) : Coherent v where
  keyed := by rwa [hv]
  numbers := by rwa [hv]
  past := by rwa [hv, List.dropLast_concat]
  last := by rwa [hv, List.getLast?_concat]
  budget := by simpa [hv] using hbudget
  queued hs := by simpa [hv] using hqueued hs
  failed hs := by simpa [hv] using hfailed hs

theorem set {state : AttemptState} {next : JobState} (h : Coherent v) (hfind : v.find a.id = some a)
    (hact : a.state.active = true) (hlast : next.agrees (some state) = true)
    (hqueued : next = .queued → a.number < v.maxAttempts)
    (hfailed : next = .failed → v.maxAttempts ≤ a.number) : Coherent (v.set a state next) := by
  obtain ⟨pre, hv, -⟩ := h.active_last (Table.mem_of_find hfind) hact
  have hkeyed := h.keyed
  have hbudget := h.budget
  have hnumber := h.number_last hv
  rw [hv] at hkeyed hbudget
  rw [List.length_append, List.length_singleton] at hbudget
  have hput : (v.set a state next).attempts = pre ++ [{ a with state := state }] := by
    rw [View.set, hv]
    exact Table.put_concat hkeyed rfl
  refine of_concat hput ?_ ?_ (h.last_of_concat hv).1 hlast
    (by simpa [View.set] using hbudget) ?_ ?_
  · simpa [Table.Keyed] using hkeyed
  · have hn := h.numbers
    rw [hv] at hn
    simpa using hn
  · intro hs
    have := hqueued hs
    simp only [View.set]
    omega
  · intro hs
    have := hfailed hs
    simp only [View.set]
    omega

theorem lease {id : Uuid} {worker : String} (h : Coherent v) (hq : v.state = .queued)
    (hid : v.find id = none) : Coherent (v.lease id v.nextNumber worker) := by
  have hbudget := h.queued hq
  refine of_concat rfl (h.keyed.append hid) ?_ ?_ rfl ?_ ?_ ?_
  · simp [h.numbers, countUp_succ, h.nextNumber]
  · intro b hb
    rcases List.eq_nil_or_concat v.attempts with hnil | ⟨pre, a, hv⟩
    · rw [hnil] at hb
      cases hb
    · rw [List.concat_eq_append] at hv
      obtain ⟨hpre, hlast⟩ := h.last_of_concat hv
      rw [hv, List.mem_append, List.mem_singleton] at hb
      rcases hb with hb | rfl
      · exact hpre b hb
      · simpa [hq, JobState.agrees] using hlast
  · simp only [View.lease]
    omega
  · exact nofun
  · exact nofun

theorem cancel (h : Coherent v) (hs : v.state ≠ .succeeded) (hf : v.state ≠ .failed) :
    Coherent v.cancel := by
  rcases List.eq_nil_or_concat v.attempts with hnil | ⟨pre, a, hv⟩
  · have hbudget := h.budget
    constructor <;> simp_all [View.cancel, Table.Keyed, JobState.agrees]
  · rw [List.concat_eq_append] at hv
    obtain ⟨hpre, hlast⟩ := h.last_of_concat hv
    have hbudget := h.budget
    have hkeyed := h.keyed
    have hnum := h.numbers
    rw [hv] at hbudget hkeyed hnum
    -- Only the last attempt can be active.
    have hmap : v.cancel.attempts =
        pre ++ [if a.state.active then { a with state := .cancelled } else a] := by
      simp only [View.cancel, hv, List.map_append, List.map_singleton, List.append_cancel_right_eq]
      conv_rhs => rw [← List.map_id pre]
      apply List.map_congr_left
      intro b hb
      simp [AttemptState.spent_not_active (hpre b hb)]
    refine of_concat hmap ?_ ?_ hpre ?_ (by simpa [View.cancel] using hbudget)
      (by simp [View.cancel]) (by simp [View.cancel])
    · have hid : (if a.state.active then { a with state := .cancelled } else a).id = a.id := by
        split <;> rfl
      simpa [Table.Keyed, hid] using hkeyed
    · have hn : (if a.state.active then { a with state := .cancelled } else a).number
          = a.number := by
        split <;> rfl
      simpa [hn] using hnum
    · split
      · rfl
      · rename_i hna
        rw [JobState.agrees_active hlast] at hna
        cases hst : v.state <;> simp_all [View.cancel, JobState.agrees, JobState.active]

theorem retry (h : Coherent v) (hs : v.state = .failed) : Coherent v.retry := by
  have hn := h.failed hs
  have hlast := h.last
  constructor
  · exact h.keyed
  · exact h.numbers
  · exact h.past
  · cases hl : v.attempts.getLast? <;> simp_all [View.retry, JobState.agrees]
  · simp only [View.retry]
    omega
  · intro _
    simp only [View.retry]
    omega
  · intro hc
    cases hc

/-- Every transition keeps the coherence of the job. -/
theorem step {v' : View} {e : EventRec} (h : Coherent v) (hs : Step v e v') : Coherent v' := by
  have hretry : ∀ {a : AttemptView} {state : AttemptState}, state.spent = true →
      v.find a.id = some a → a.state.active = true →
      Coherent (v.set a state (retryState a.number v.maxAttempts)) := by
    intro a state hspent hfind hact
    refine h.set hfind hact ?_ ?_ ?_
    · unfold retryState
      split <;> simpa [JobState.agrees] using hspent
    · unfold retryState
      split <;> simp_all
    · unfold retryState
      split <;> simp_all
  cases hs with
  | submitted => exact h
  | leased _ _ _ hq hid => exact h.lease hq hid
  | started _ _ hfind hst => exact h.set hfind (by simp [hst, AttemptState.active]) rfl nofun nofun
  | restarted => exact h
  | reported => exact h
  | completed _ _ hfind hst =>
      exact h.set hfind (by simp [hst, AttemptState.active]) rfl nofun nofun
  | failed _ _ hfind hst => exact hretry rfl hfind (by simp [hst, AttemptState.active])
  | expired _ _ hfind hact => exact hretry rfl hfind hact
  | cancelled _ hs hf _ => exact h.cancel hs hf
  | recancelled => exact h
  | retried _ hst => exact h.retry hst

end Coherent

theorem Trace.coherent {d : Job} {es : List EventRec} {v : View} (hd : d.Valid)
    (h : Trace (initial d) es v) : Coherent v := by
  induction h with
  | nil => exact .initial hd
  | snoc _ hstep ih => exact ih.step hstep

end View

end Rungrid
