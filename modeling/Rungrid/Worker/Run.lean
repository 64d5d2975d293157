-- SUMMARY: The main loop of a worker: how many leases it executes at once, and how it ends.
import Mathlib.Data.List.Perm.Subperm
import Rungrid.Store.System

/-!
# The loop of a worker

`Worker.run` asks for a lease whenever it has a free slot and submits it to a pool of
`cpu` threads. An execution can end at any time, and so can a signal ask the worker to
stop. Leaving the `with` block of the pool, also by an exception, waits for all
executions; only then is the channel closed that they make their calls over.

A lease is given by its attempt. That no attempt is leased twice is a result about the
server and a guard of the step here.
-/

namespace Rungrid

namespace Worker

/-! ## States -/

/-- Where `run` stands. -/
inductive RunPhase where
  | registering
  /-- At the test of the loop. -/
  | looping
  /-- After the futures that are done were removed. -/
  | asking
  /-- After the loop. -/
  | releasing
  /-- In the exit of the `with` block. -/
  | joining
  /-- In the exit of the `with` block, with an exception. -/
  | unwinding
  | closed
  | raised
deriving DecidableEq, Repr

/-- `run` and the threads of its pool. `submitted` are all leases that were submitted,
`calls` the calls `run` has made itself, and `failed` the executions that ended with an
exception. -/
structure Run where
  phase : RunPhase
  stopping : Bool
  futures : List Uuid
  unfinished : List Uuid
  failed : List Uuid
  submitted : List Uuid
  calls : List Method

namespace Run

def initial : Run := ⟨.registering, false, [], [], [], [], []⟩

/-- One step of the loop, of a thread, or of the signal handler. -/
inductive Step (cpu : Nat) (r : Run) : Run → Prop where
  | register : r.phase = .registering →
      Step cpu r { r with phase := .looping, calls := r.calls ++ [.registerWorker] }
  /-- The exception leaves `run` before there is a pool. -/
  | unregistered : r.phase = .registering →
      Step cpu r { r with phase := .raised, calls := r.calls ++ [.registerWorker] }
  | stop : Step cpu r { r with stopping := true }
  | finish {id : Uuid} : id ∈ r.unfinished → Step cpu r { r with unfinished := r.unfinished.erase id }
  | fail {id : Uuid} : id ∈ r.unfinished →
      Step cpu r { r with unfinished := r.unfinished.erase id, failed := r.failed ++ [id] }
  /-- A future that ends after the loop has passed it is removed in another turn. -/
  | collect {done : List Uuid} : r.phase = .looping → r.stopping = false →
      (∀ id ∈ done, id ∉ r.unfinished ∧ id ∉ r.failed) →
      Step cpu r { r with phase := .asking, futures := r.futures.filter (fun id => id ∉ done) }
  /-- `future.result()` raises the exception of the execution. -/
  | result {id : Uuid} : r.phase = .looping → r.stopping = false → id ∈ r.futures → id ∈ r.failed →
      Step cpu r { r with phase := .unwinding }
  | heartbeat : r.phase = .asking → Step cpu r { r with calls := r.calls ++ [.heartbeat] }
  | full : r.phase = .asking → cpu ≤ r.futures.length → Step cpu r { r with phase := .looping }
  | lease {id : Uuid} : r.phase = .asking → r.futures.length < cpu → id ∉ r.submitted →
      Step cpu r { r with
        phase := .looping
        futures := r.futures ++ [id]
        unfinished := r.unfinished ++ [id]
        submitted := r.submitted ++ [id]
        calls := r.calls ++ [.leaseJob] }
  /-- An idle answer, or an error that is caught. -/
  | idle : r.phase = .asking → r.futures.length < cpu →
      Step cpu r { r with phase := .looping, calls := r.calls ++ [.leaseJob] }
  /-- An error of the heartbeat. -/
  | unavailable : r.phase = .asking →
      Step cpu r { r with phase := .looping, calls := r.calls ++ [.heartbeat] }
  /-- An exception that is not caught. -/
  | raise : r.phase = .asking → Step cpu r { r with phase := .unwinding }
  | leave : r.phase = .looping → r.stopping = true → Step cpu r { r with phase := .releasing }
  | release : r.phase = .releasing →
      Step cpu r { r with phase := .joining, calls := r.calls ++ [.releaseWorker] }
  | unreleased : r.phase = .releasing →
      Step cpu r { r with phase := .unwinding, calls := r.calls ++ [.releaseWorker] }
  | close : r.phase = .joining → r.unfinished = [] → Step cpu r { r with phase := .closed }
  | reraise : r.phase = .unwinding → r.unfinished = [] → Step cpu r { r with phase := .raised }

inductive Reached (cpu : Nat) : Run → Prop where
  | initial : Reached cpu initial
  | step {r r' : Run} : Reached cpu r → r.Step cpu r' → Reached cpu r'

/-! ## What every step keeps -/

end Run

/-- `ReleaseWorker` has not been called. -/
def RunPhase.holds : RunPhase → Bool
  | .registering | .looping | .asking | .releasing => true
  | _ => false

/-- The pool has been left. -/
def RunPhase.left : RunPhase → Bool
  | .closed | .raised => true
  | _ => false

namespace Run

/-- The calls begin with the registration, which is made once, and none follows the
release. -/
def Framed (calls : List Method) : Prop :=
  ∀ pre m post, calls = pre ++ m :: post →
    (m = .registerWorker ↔ pre = []) ∧ (m = .releaseWorker → post = [])

/-- The executions are those of the futures, and the futures fit the threads. -/
structure Sound (cpu : Nat) (r : Run) : Prop where
  running : r.unfinished ⊆ r.futures
  once : r.unfinished.Nodup
  slots : r.futures.length ≤ cpu
  known : r.futures ⊆ r.submitted
  fresh : r.phase = .registering → r.futures = [] ∧ r.calls = []
  registered : r.phase ≠ .registering → r.calls ≠ []
  held : r.phase.holds = true → .releaseWorker ∉ r.calls
  framed : Framed r.calls
  left : r.phase.left = true → r.unfinished = []

section Calls

variable {calls : List Method} {m : Method}

theorem Framed.nil : Framed [] := by
  intro pre m post h
  simp at h

theorem Framed.register : Framed [.registerWorker] := by
  intro pre m post h
  rcases List.append_eq_singleton_iff.mp h.symm with ⟨rfl, heq⟩ | ⟨-, hnil⟩
  · obtain ⟨rfl, rfl⟩ := List.cons.inj heq
    exact ⟨⟨fun _ => rfl, fun _ => rfl⟩, fun _ => rfl⟩
  · cases hnil

/-- Another call, while `ReleaseWorker` has not been made. -/
theorem Framed.append (h : Framed calls) (hsome : calls ≠ []) (hnot : .releaseWorker ∉ calls)
    (hm : m ≠ .registerWorker) : Framed (calls ++ [m]) := by
  intro pre m' post heq
  rcases List.eq_nil_or_concat post with rfl | ⟨post', last, rfl⟩
  · obtain ⟨rfl, rfl⟩ := List.append_inj' heq rfl |>.imp_right (fun hlast => (List.cons.inj hlast).1)
    exact ⟨iff_of_false hm hsome, fun _ => rfl⟩
  · rw [List.concat_eq_append, ← List.cons_append, ← List.append_assoc] at heq
    obtain ⟨hcalls, -⟩ := List.append_inj' heq rfl
    refine ⟨(h pre m' post' hcalls).1, fun hrelease => absurd ?_ hnot⟩
    rw [hcalls, hrelease]
    exact List.mem_append_right _ List.mem_cons_self

end Calls

section Kept

variable {cpu : Nat} {r r' : Run}

theorem Sound.initial : Run.initial.Sound cpu where
  running := List.nil_subset _
  once := List.nodup_nil
  slots := Nat.zero_le _
  known := List.nil_subset _
  fresh := fun _ => ⟨rfl, rfl⟩
  registered := fun h => absurd rfl h
  held := fun _ => List.not_mem_nil
  framed := .nil
  left := fun h => by cases h

/-- Before the pool there are no executions. -/
theorem Sound.none_unfinished (h : r.Sound cpu) (hphase : r.phase = .registering) : r.unfinished = [] :=
  List.subset_nil.mp ((h.fresh hphase).1 ▸ h.running)

/-- The end of an execution. -/
theorem Sound.finish (h : r.Sound cpu) (id : Uuid) :
    Sound cpu { r with unfinished := r.unfinished.erase id } :=
  { h with
    running := fun x hx => h.running (List.mem_of_mem_erase hx)
    once := h.once.erase id
    left := fun hleft => by rw [h.left hleft]; rfl }

/-- A step of the loop that makes no call. -/
theorem Sound.move (h : r.Sound cpu) {phase : RunPhase} (hfrom : r.phase ≠ .registering)
    (hto : phase ≠ .registering) (hholds : phase.holds = true → r.phase.holds = true)
    (hleft : phase.left = true → r.unfinished = []) : Sound cpu { r with phase := phase } :=
  { h with
    fresh := fun hphase => absurd hphase hto
    registered := fun _ => h.registered hfrom
    held := fun hphase => h.held (hholds hphase)
    left := hleft }

/-- A call of the loop after which `ReleaseWorker` has not been called. -/
theorem Sound.call (h : r.Sound cpu) {phase : RunPhase} {m : Method} (hfrom : r.phase ≠ .registering)
    (hheld : r.phase.holds = true) (hto : phase ≠ .registering) (hleft : phase.left = false)
    (hm : m ≠ .registerWorker) (hrelease : phase.holds = true → m ≠ .releaseWorker) :
    Sound cpu { r with phase := phase, calls := r.calls ++ [m] } :=
  { h with
    fresh := fun hphase => absurd hphase hto
    registered := fun _ => List.append_ne_nil_of_right_ne_nil _ (List.cons_ne_nil _ _)
    held := fun hphase hmem => by
      rcases List.mem_append.mp hmem with hmem | hmem
      · exact h.held hheld hmem
      · exact hrelease hphase (List.mem_singleton.mp hmem).symm
    framed := h.framed.append (h.registered hfrom) (h.held hheld) hm
    left := fun hphase => by rw [hleft] at hphase; cases hphase }

theorem Sound.step (h : r.Sound cpu) (hstep : r.Step cpu r') : r'.Sound cpu := by
  have hne : ∀ {phase : RunPhase}, r.phase = phase → phase ≠ .registering → r.phase ≠ .registering :=
    fun heq hphase => heq ▸ hphase
  cases hstep with
  | register hphase =>
      refine { h with
        fresh := fun hregistering => by cases hregistering
        registered := fun _ => List.append_ne_nil_of_right_ne_nil _ (List.cons_ne_nil _ _)
        held := fun _ => ?_
        framed := ?_
        left := fun hleft => by cases hleft }
      · simp [(h.fresh hphase).2]
      · rw [(h.fresh hphase).2]
        exact .register
  | unregistered hphase =>
      refine { h with
        fresh := fun hregistering => by cases hregistering
        registered := fun _ => List.append_ne_nil_of_right_ne_nil _ (List.cons_ne_nil _ _)
        held := fun hholds => by cases hholds
        framed := ?_
        left := fun _ => h.none_unfinished hphase }
      rw [(h.fresh hphase).2]
      exact .register
  | stop => exact { h with }
  | @finish id _ => exact h.finish id
  | @fail id _ => exact { h.finish id with }
  | @collect done hphase hstop hdone =>
      refine { h with
        running := fun id hid => List.mem_filter.mpr ⟨h.running hid, ?_⟩
        slots := (List.length_filter_le _ _).trans h.slots
        known := fun id hid => h.known (List.mem_of_mem_filter hid)
        fresh := fun hregistering => by cases hregistering
        registered := fun _ => h.registered (hne hphase (by decide))
        held := fun _ => h.held (by rw [hphase]; rfl)
        left := fun hleft => by cases hleft }
      simpa using fun hmem => (hdone id hmem).1 hid
  | result hphase | raise hphase =>
      exact h.move (hne hphase (by decide)) (by decide) (fun hholds => by cases hholds)
        (fun hleft => by cases hleft)
  | heartbeat hphase =>
      exact h.call (hne hphase (by decide)) (by rw [hphase]; rfl) (hne hphase (by decide))
        (by rw [hphase]; rfl) (by decide) (fun _ => by decide)
  | full hphase | leave hphase =>
      exact h.move (hne hphase (by decide)) (by decide) (fun _ => by rw [hphase]; rfl)
        (fun hleft => by cases hleft)
  | @lease id hphase hslot hnew =>
      have hcall : Sound cpu { r with phase := .looping, calls := r.calls ++ [.leaseJob] } :=
        h.call (hne hphase (by decide)) (by rw [hphase]; rfl) (by decide) rfl (by decide)
          (fun _ => by decide)
      have hnot : id ∉ r.unfinished := fun hmem => hnew (h.known (h.running hmem))
      refine { hcall with
        running := fun x hx => ?_
        once := List.nodup_append.mpr ⟨h.once, List.nodup_singleton _, ?_⟩
        slots := by rw [List.length_append]; exact hslot
        known := fun x hx => ?_
        fresh := fun hregistering => by cases hregistering
        left := fun hleft => by cases hleft }
      · exact (List.mem_append.mp hx).elim (fun hx => List.mem_append_left _ (h.running hx))
          (List.mem_append_right _)
      · rintro x hx y hy rfl
        exact hnot (List.mem_singleton.mp hy ▸ hx)
      · exact (List.mem_append.mp hx).elim (fun hx => List.mem_append_left _ (h.known hx))
          (List.mem_append_right _)
  | idle hphase | unavailable hphase =>
      exact h.call (hne hphase (by decide)) (by rw [hphase]; rfl) (by decide) rfl (by decide)
        (fun _ => by decide)
  | release hphase | unreleased hphase =>
      exact h.call (hne hphase (by decide)) (by rw [hphase]; rfl) (by decide) rfl (by decide)
        (fun hholds => by cases hholds)
  | close hphase hnone | reraise hphase hnone =>
      exact h.move (hne hphase (by decide)) (by decide) (fun hholds => by cases hholds) (fun _ => hnone)

theorem Reached.sound (h : Reached cpu r) : r.Sound cpu := by
  induction h with
  | initial => exact .initial
  | step _ hstep ih => exact ih.step hstep

end Kept

end Run

end Worker

namespace Sample

/-- A worker with one thread is stopped while it executes a lease. -/
theorem run_stopped : Worker.Run.Reached 1 ⟨.joining, true, [attemptID], [attemptID], [], [attemptID],
    [.registerWorker, .leaseJob, .releaseWorker]⟩ := by
  have h1 : Worker.Run.Reached 1 ⟨.looping, false, [], [], [], [], [.registerWorker]⟩ :=
    .step .initial (.register rfl)
  have h2 : Worker.Run.Reached 1 ⟨.asking, false, [], [], [], [], [.registerWorker]⟩ :=
    h1.step (@Worker.Run.Step.collect 1 _ [] rfl rfl (List.forall_mem_nil _))
  have h3 : Worker.Run.Reached 1 ⟨.looping, false, [attemptID], [attemptID], [], [attemptID],
      [.registerWorker, .leaseJob]⟩ := h2.step (.lease rfl Nat.zero_lt_one List.not_mem_nil)
  have h4 : Worker.Run.Reached 1 ⟨.looping, true, [attemptID], [attemptID], [], [attemptID],
      [.registerWorker, .leaseJob]⟩ := h3.step .stop
  have h5 : Worker.Run.Reached 1 ⟨.releasing, true, [attemptID], [attemptID], [], [attemptID],
      [.registerWorker, .leaseJob]⟩ := h4.step (.leave rfl rfl)
  exact h5.step (.release rfl)

/-- The execution ends, and then the channel is closed. -/
theorem run_closed : Worker.Run.Reached 1 ⟨.closed, true, [attemptID], [], [], [attemptID],
    [.registerWorker, .leaseJob, .releaseWorker]⟩ := by
  have h1 : Worker.Run.Reached 1 ⟨.joining, true, [attemptID], [], [], [attemptID],
      [.registerWorker, .leaseJob, .releaseWorker]⟩ :=
    run_stopped.step (@Worker.Run.Step.finish 1 _ attemptID List.mem_cons_self)
  exact h1.step (.close rfl rfl)

end Sample

/-- In every state of a worker's loop no more leases are being executed than the pool has
threads, so none waits for a thread while its lease runs out. The loop registers first and
once and makes no call after `ReleaseWorker`. It ends, also with an exception, only when
no execution is left, so the channel is not closed under one. -/
theorem worker_run_bounded (cpu : Nat) (r : Worker.Run) (hr : Worker.Run.Reached cpu r) :
    r.unfinished.length ≤ cpu ∧ Worker.Run.Framed r.calls ∧
      (r.phase = .closed ∨ r.phase = .raised → r.unfinished = []) := by
  have h := hr.sound
  have hlength : r.unfinished.length ≤ r.futures.length :=
    (List.subperm_of_subset h.once h.running).length_le
  refine ⟨hlength.trans h.slots, h.framed, fun hended => h.left ?_⟩
  rcases hended with hphase | hphase <;> rw [hphase] <;> rfl

theorem worker_run_bounded_stopped : [Sample.attemptID].length ≤ 1 ∧
    Worker.Run.Framed [.registerWorker, .leaseJob, .releaseWorker] :=
  ⟨(worker_run_bounded 1 _ Sample.run_stopped).1, (worker_run_bounded 1 _ Sample.run_closed).2.1⟩

end Rungrid
