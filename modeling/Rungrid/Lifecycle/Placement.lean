-- SUMMARY: The placement query is asked within the capacity of the worker, and the budget check after it never fails.
import Rungrid.Lifecycle.Capacity
import Rungrid.Lifecycle.Coherence
import Mathlib.Tactic.SplitIfs

/-!
# Placement

`Prog.Placed` is what every transaction satisfies in a reachable state: the limits
it passes to the placement query are not negative and fit the columns they are
compared with, and it does not fail with the budget error. All programs but
`lease` satisfy it whatever the state, since they contain neither.
-/

namespace Rungrid

open Prog (sql Runs)

/-- Every component can be stored in an `integer` column and is not negative. -/
def Resources.InColumns (r : Resources) : Prop :=
  (0 ≤ r.cpu ∧ 0 ≤ r.memoryMB ∧ 0 ≤ r.gpu) ∧ Int4 r.cpu ∧ Int4 r.memoryMB ∧ Int4 r.gpu

def Stmt.isPlacement : Stmt → Bool
  | .pickJob _ => true
  | _ => false

/-- The program has neither the placement query nor the budget error. -/
def Prog.Plain {α : Type} (p : Prog α) : Prop :=
  p.All (fun st => st.isPlacement = false) (fun e => e ≠ .budget)

/-- The statement neither places a job nor reads the row of a worker. -/
def Stmt.isQuiet : Stmt → Bool
  | .pickJob _ | .lockWorker _ => false
  | _ => true

/-- The program has quiet statements only, and no budget error. -/
def Prog.Quiet {α : Type} (p : Prog α) : Prop :=
  p.All (fun st => st.isQuiet = true) (fun e => e ≠ .budget)

/-- The statements of `Submit` and of the actions, but for those of their receipts. -/
def Stmt.isClient : Stmt → Bool
  | .newID | .lockKey _ | .insertJob .. | .jobByKey _ | .insertEvent .. | .lockJob _ | .jobByID _
  | .cancelAttempts _ | .setJob .. => true
  | _ => false

/-- The program has statements of clients only, and no budget error. -/
def Prog.Client {α : Type} (p : Prog α) : Prop :=
  p.All (fun st => st.isClient = true) (fun e => e ≠ .budget)

/-- The program places within the columns and does not fail with the budget error. -/
def Prog.Placed {α : Type} (p : Prog α) (db : Db) : Prop :=
  p.Safe (fun st => ∀ limit, st = .pickJob limit → limit.InColumns) (fun e => e ≠ .budget) db

section Plain

variable {α β : Type} {db : Db}

@[simp] theorem Prog.plain_done (a : α) : (Prog.done a).Plain := trivial

@[simp] theorem Prog.plain_fail {e : Err} : (Prog.fail e : Prog α).Plain ↔ e ≠ .budget := Iff.rfl

theorem Prog.Plain.sql {st : Stmt} {f : st.Result → Prog β} (hst : st.isPlacement = false)
    (hf : ∀ r, (f r).Plain) : (sql st >>= f).Plain := ⟨hst, hf⟩

theorem Prog.Plain.bind {p : Prog α} {f : α → Prog β} (hp : p.Plain) (hf : ∀ a, (f a).Plain) :
    (p >>= f).Plain :=
  Prog.All.bind hp hf

@[simp] theorem Prog.quiet_done (a : α) : (Prog.done a).Quiet := trivial

@[simp] theorem Prog.quiet_fail {e : Err} : (Prog.fail e : Prog α).Quiet ↔ e ≠ .budget := Iff.rfl

theorem Prog.Quiet.sql {st : Stmt} {f : st.Result → Prog β} (hst : st.isQuiet = true)
    (hf : ∀ r, (f r).Quiet) : (sql st >>= f).Quiet := ⟨hst, hf⟩

theorem Prog.Quiet.bind {p : Prog α} {f : α → Prog β} (hp : p.Quiet) (hf : ∀ a, (f a).Quiet) :
    (p >>= f).Quiet :=
  Prog.All.bind hp hf

theorem Prog.Quiet.plain {p : Prog α} (hp : p.Quiet) : p.Plain := by
  refine hp.mono (fun st hquiet => ?_) (fun _ he => he)
  cases st <;> first | rfl | cases hquiet

@[simp] theorem Prog.client_done (a : α) : (Prog.done a).Client := trivial

@[simp] theorem Prog.client_fail {e : Err} : (Prog.fail e : Prog α).Client ↔ e ≠ .budget := Iff.rfl

theorem Prog.Client.sql {st : Stmt} {f : st.Result → Prog β} (hst : st.isClient = true)
    (hf : ∀ r, (f r).Client) : (sql st >>= f).Client := ⟨hst, hf⟩

theorem Prog.Client.bind {p : Prog α} {f : α → Prog β} (hp : p.Client) (hf : ∀ a, (f a).Client) :
    (p >>= f).Client :=
  Prog.All.bind hp hf

theorem Prog.Client.quiet {p : Prog α} (hp : p.Client) : p.Quiet := by
  refine hp.mono (fun st hclient => ?_) (fun _ he => he)
  cases st <;> first | rfl | cases hclient

/-- The budget error is the program's own: no statement fails with it. -/
theorem Stmt.eval_ne_budget (st : Stmt) (o : Oracle) (db : Db) :
    st.eval o db db ≠ .error .budget := by
  cases st with
  | insertArtifact id job attempt a =>
      simp only [Stmt.eval]
      cases ArtifactKind.parse a.kind <;> split_ifs <;> simp
  | _ =>
      simp only [Stmt.eval]
      try split_ifs
      all_goals simp

private theorem error_ne_budget {st : Stmt} {o : Oracle} {e : Err}
    (h : st.eval o db db = .error e) : e ≠ .budget := by
  rintro rfl
  exact Stmt.eval_ne_budget st o db h

theorem Prog.Plain.placed {p : Prog α} (hp : p.Plain) (db : Db) : p.Placed db := by
  have hall : p.All (fun st => ∀ limit, st = .pickJob limit → limit.InColumns)
      (fun e => e ≠ .budget) := by
    induction p with
    | done a => trivial
    | fail e => exact hp
    | exec st k ih =>
        refine ⟨fun limit heq => ?_, fun r => ih r (hp.2 r)⟩
        have hst : st.isPlacement = false := hp.1
        rw [heq] at hst
        cases hst
  exact hall.safe (fun st _ o db e h => error_ne_budget h) db

/-- A statement other than the placement query, and what follows it. -/
theorem Prog.Placed.sql {st : Stmt} {f : st.Result → Prog β} (hst : st.isPlacement = false)
    (hf : ∀ o r ws, st.eval o db db = .ok (r, ws) → (f r).Placed (db.applyAll ws)) :
    (sql st >>= f).Placed db := by
  refine ⟨fun limit heq => ?_, fun o => ⟨fun e h => error_ne_budget h, hf o⟩⟩
  rw [heq] at hst
  cases hst

/-- The placement query, and what follows it. -/
theorem Prog.Placed.place {limit : Resources} {f : Option JobRow → Prog β}
    (hlimit : limit.InColumns)
    (hf : ∀ o found ws, (Stmt.pickJob limit).eval o db db = .ok (found, ws) →
      (f found).Placed (db.applyAll ws)) : (Prog.sql (.pickJob limit) >>= f).Placed db := by
  refine ⟨fun limit' heq => ?_, fun o => ⟨fun e h => error_ne_budget h, hf o⟩⟩
  cases heq
  exact hlimit

end Plain

/-! ## The programs that do not read a worker -/

section Programs

theorem submitLoop_client (js : List Job) (out : List JobRow) :
    (Store.submitLoop js out).Client := by
  induction js generalizing out with
  | nil => simp [Store.submitLoop]
  | cons j js ih =>
      refine .sql rfl (fun id => .sql rfl (fun inserted => .sql rfl (fun found => ?_)))
      split
      · simp
      split
      · simp
      split
      · exact .sql rfl (fun _ => ih _)
      · exact ih _

theorem lockKeys_client (keys : List String) : (Store.lockKeys keys).Client := by
  induction keys with
  | nil => simp [Store.lockKeys]
  | cons key keys ih => exact .sql rfl (fun _ => ih)

theorem submit_client (jobs : List Job) : (Store.submit jobs).Client := by
  unfold Store.submit
  split
  · simp
  split
  · simp
  · exact (lockKeys_client _).bind (fun _ => submitLoop_client _ _)

theorem reapLoop_quiet (ids : List Uuid) (n : Nat) : (Store.reapLoop ids n).Quiet := by
  induction ids generalizing n with
  | nil => simp [Store.reapLoop]
  | cons id ids ih =>
      refine .sql rfl (fun found => ?_)
      split
      · exact ih _
      · exact .sql rfl (fun _ => .sql rfl (fun _ => .sql rfl (fun _ => ih _)))

theorem finishAction_client (id : Uuid) (a : Action) (requestID : String) (state : JobState)
    (max : Int) : (Store.finishAction id a requestID state max).Client := by
  refine .sql rfl (fun _ => .sql rfl (fun _ => .sql rfl (fun row => ?_)))
  split <;> simp

theorem actionBody_client (id : String) (a : Action) (requestID : String) :
    (Store.actionBody id a requestID).Client := by
  unfold Store.actionBody
  split
  · simp
  refine .sql rfl (fun row => ?_)
  split
  · simp
  split
  · split
    · simp
    split
    · exact .sql rfl (fun _ => finishAction_client _ _ _ _ _)
    · exact finishAction_client _ _ _ _ _
  · split
    · simp
    · exact finishAction_client _ _ _ _ _
  · simp

theorem recordArtifacts_quiet (scope : String) (job attempt : Uuid) (xs : List Artifact) :
    (Store.recordArtifacts scope job attempt xs).Quiet := by
  induction xs with
  | nil => simp [Store.recordArtifacts]
  | cons x xs ih =>
      unfold Store.recordArtifacts
      split
      · simp
      refine .sql rfl (fun existing => ?_)
      split
      · split
        · simp
        · exact ih
      · exact .sql rfl (fun _ => .sql rfl (fun _ => ih))

/-- The methods that report on an attempt begin alike. -/
private theorem report_quiet {r : Request} {c : AttemptCheck} {k : Unit → Prog Response}
    {scope : String} {job attempt : Uuid} (hk : (k ()).Quiet) :
    (if c.state ≠ .running then .fail (.conflict none)
      else if !Store.reportOk r then .fail (.invalid none)
      else Store.recordArtifacts scope job attempt r.artifacts.elems >>= k).Quiet := by
  split
  · simp
  split
  · simp
  · exact (recordArtifacts_quiet _ _ _ _).bind (fun _ => hk)

theorem attemptBody_quiet (s : Store) (m : Method) (r : Request) (j : JobRow) (id : Uuid)
    (c : AttemptCheck) : (s.attemptBody m r j id c).Quiet := by
  have haccept : ∀ m, (Store.accept m r j.id id).Quiet := fun _ => .sql rfl (fun _ => by simp)
  have hfinish : ∀ m state next, (Store.finish m r j.id id state next).Quiet :=
    fun _ _ _ => .sql rfl (fun _ => .sql rfl (fun _ => haccept _))
  cases m with
  | heartbeat =>
      refine .sql rfl (fun renewed => ?_)
      split <;> simp
  | startAttempt =>
      dsimp only [Store.attemptBody]
      split
      · exact .sql rfl (fun _ => .sql rfl (fun _ => haccept _))
      · exact haccept _
  | reportProgress => exact report_quiet (haccept _)
  | completeAttempt =>
      refine report_quiet ?_
      dsimp only
      split
      · simp
      · exact hfinish _ _ _
  | failAttempt => exact report_quiet (hfinish _ _ _)
  | _ => simp [Store.attemptBody]

theorem attempt_quiet (s : Store) (m : Method) (r : Request) : (s.attempt m r).Quiet := by
  unfold Store.attempt
  split
  · refine .sql rfl (fun owner => ?_)
    split
    · simp
    refine .sql rfl (fun row => ?_)
    split
    · simp
    refine .sql rfl (fun checked => ?_)
    split
    · simp
    split
    · simp
    · exact attemptBody_quiet _ _ _ _ _ _
  · simp

theorem registerBody_plain (r : Request) : (Store.registerBody r).Plain := by
  unfold Store.registerBody
  split
  · simp
  refine .sql rfl (fun _ => .sql rfl (fun row => ?_))
  split
  · simp
  split <;> simp

end Programs

/-! ## Placement -/

/-- A queued job has an attempt left. -/
theorem Db.next_le_budget {db : Db} {j : JobRec} (h : (db.view j).Coherent)
    (hq : j.state = .queued) : db.nextNumber j.id ≤ j.maxAttempts := by
  have hlt := h.queued hq
  rw [Db.nextNumber_eq h]
  simp only [Db.view, List.length_map] at hlt
  omega

/-- What is left of a worker. -/
theorem Db.Conserved.available {db : Db} (h : db.Conserved) (hwf : db.WF) {w : WorkerRec}
    (hw : w ∈ db.workers) : (w.capacity.sub (db.used w.id)).InColumns := by
  obtain ⟨u₁, u₂, u₃⟩ := hwf.zero_le_used w.id
  obtain ⟨l₁, l₂, l₃⟩ := h w hw
  obtain ⟨-, -, -, c₁, c₂, c₃⟩ := hwf.capacity w hw
  simp only [Resources.zero] at u₁ u₂ u₃
  refine ⟨⟨?_, ?_, ?_⟩, ⟨?_, ?_⟩, ⟨?_, ?_⟩, ⟨?_, ?_⟩⟩ <;> simp only [Resources.sub] <;> omega

/-- The states in which transactions run: what placement relies on. -/
structure Db.Placeable (db : Db) : Prop where
  wf : db.WF
  logged : db.Logged
  conserved : db.Conserved

theorem Db.Placeable.withRequests {db : Db} (h : db.Placeable) (rs : List RequestRec) :
    (db.withRequests rs).Placeable :=
  ⟨h.wf.withRequests rs, h.logged.withRequests rs, h.conserved⟩

theorem Db.Placeable.effect {P : Oracle → Prop} {s : Store} {db db' : Db} {c : Change}
    (h : db.Placeable) (he : Effect P s db c db') : db'.Placeable :=
  ⟨he.wf h.wf, he.logged h.wf h.logged, he.conserved h.wf h.conserved⟩

section Placed

variable {db : Db} {s : Store} {r : Request}

theorem lease_placed {w : WorkerRec} {cap : Resources} (h : db.Placeable)
    (hw : db.worker? r.workerID = some w) (hcap : w.capacity = cap) :
    (s.lease r cap).Placed db := by
  refine .sql rfl (fun o used ws heval => ?_)
  cases heval
  have hlimit := h.conserved.available h.wf (Db.mem_of_worker? hw)
  rw [Db.worker?_id hw, hcap] at hlimit
  refine .place hlimit (fun o found ws heval => ?_)
  simp only [Stmt.eval, Except.ok.injEq, Prod.mk.injEq] at heval
  obtain ⟨hfound, rfl⟩ := heval
  cases found with
  | none => trivial
  | some row =>
      obtain ⟨j, rfl, hj, hp⟩ := pickJob_some hfound
      simp only [JobRec.placeable, Bool.and_eq_true, decide_eq_true_eq] at hp
      have hle := Db.next_le_budget (h.logged.coherent h.wf (Db.mem_of_job? hj)) hp.1
      refine Prog.Placed.sql rfl (fun o attemptID ws heval => ?_)
      cases heval
      refine .sql rfl (fun o token ws heval => ?_)
      cases heval
      refine .sql rfl (fun o res ws heval => ?_)
      obtain ⟨number, expires, now⟩ := res
      have hnumber : number = db.nextNumber j.id := by
        simp only [Stmt.eval] at heval
        split_ifs at heval
        cases heval
        rfl
      dsimp only
      rw [if_neg (by rw [hnumber]; exact Int.not_lt.mpr hle)]
      refine Prog.Plain.placed ?_ _
      exact .sql rfl (fun _ => .sql rfl (fun _ => .sql rfl (fun _ => by simp)))

theorem workerBody_placed {m : Method} (h : db.Placeable) : (s.workerBody m r).Placed db := by
  refine .sql rfl (fun o row ws heval => ?_)
  simp only [Stmt.eval, reread_self, Except.ok.injEq, Prod.mk.injEq] at heval
  obtain ⟨hrow, rfl⟩ := heval
  cases row with
  | none => exact Prog.Plain.placed (by simp) _
  | some w =>
      dsimp only
      split
      · exact Prog.Plain.placed (by simp) _
      refine .sql rfl (fun o _ ws heval => ?_)
      simp only [Stmt.eval, Db.applyAll_nil, hrow, reread_self, updateRow_some, Except.ok.injEq,
        Prod.mk.injEq, true_and] at heval
      subst heval
      have he : Effect (fun _ => True) s db (.touched r.workerID) _ := .touched hrow (o := o) trivial
      have hw : (db.apply (.putWorker { w with lastHeartbeatAt := o.clock 0 })).worker? r.workerID
          = some { w with lastHeartbeatAt := o.clock 0 } := Db.worker?_putWorker hrow rfl
      cases m with
      | leaseJob =>
          dsimp only
          split
          · exact Prog.Plain.placed (by simp) _
          · exact lease_placed (h.effect he) hw rfl
      | releaseWorker => exact Prog.Plain.placed (.sql rfl (fun _ => by simp)) _
      | heartbeat =>
          dsimp only
          split
          · exact Prog.Plain.placed (by simp) _
          · exact (attempt_quiet s _ r).plain.placed _
      | startAttempt => exact (attempt_quiet s _ r).plain.placed _
      | reportProgress => exact (attempt_quiet s _ r).plain.placed _
      | completeAttempt => exact (attempt_quiet s _ r).plain.placed _
      | failAttempt => exact (attempt_quiet s _ r).plain.placed _
      | registerWorker => exact Prog.Plain.placed (by simp) _
      | unknown name => exact Prog.Plain.placed (by simp) _

theorem rpcBody_placed {m : Method} (h : db.Placeable) : (s.rpcBody m r).Placed db := by
  unfold Store.rpcBody
  split
  · exact (registerBody_plain r).placed _
  · exact workerBody_placed h

variable [Sha256]

/-- The statements around the body of a mutation are plain. -/
theorem mutate_placed {scope id : String} {payload : Json} {fn : Prog Response}
    (hfn : ∀ rs, fn.Placed (db.withRequests rs)) :
    (Store.mutate scope id payload fn).Placed db := by
  unfold Store.mutate
  split
  · exact Prog.Plain.placed (by simp) _
  refine .sql rfl (fun o _ ws heval => ?_)
  have hws : ∃ rs, db.applyAll ws = db.withRequests rs := by
    simp only [Stmt.eval] at heval
    split_ifs at heval
    · cases heval
      exact ⟨db.requests, rfl⟩
    · cases heval
      exact ⟨_, rfl⟩
  obtain ⟨rs, hrs⟩ := hws
  refine .sql rfl (fun o row ws heval => ?_)
  simp only [Stmt.eval, Except.ok.injEq, Prod.mk.injEq] at heval
  obtain ⟨-, rfl⟩ := heval
  rw [hrs]
  split
  · exact Prog.Plain.placed (by simp) _
  split
  · exact Prog.Plain.placed (by simp) _
  split
  · exact Prog.Plain.placed (by simp) _
  · exact Prog.Safe.bind (hfn rs) (fun _ _ _ => Prog.Plain.placed (.sql rfl (fun _ => by simp)) _)

/-- Every transaction places within the columns and keeps within the budget. -/
theorem prog_placed {op : Op} (h : db.Placeable) : (op.prog s).Placed db := by
  cases op with
  | submit jobs => exact ((submit_client jobs).quiet.plain.bind (fun _ => by simp)).placed _
  | reap =>
      refine (Prog.Plain.bind (.sql rfl (fun _ => ?_)) (fun _ => by simp)).placed _
      exact (reapLoop_quiet _ _).plain
  | rpc m r =>
      refine Prog.Safe.bind ?_ (fun _ _ _ => trivial)
      unfold Store.rpc
      split
      · exact Prog.Plain.placed (by simp) _
      · exact mutate_placed (fun rs => rpcBody_placed (h.withRequests rs))
  | action id a requestID =>
      refine Prog.Safe.bind ?_ (fun _ _ _ => trivial)
      exact mutate_placed (fun rs => (actionBody_client id a requestID).quiet.plain.placed _)

end Placed

theorem Reachable.placeable [Sha256] {db : Db} (h : Reachable db) : db.Placeable :=
  ⟨h.logged.1.wf, h.logged.2, h.conserved.2⟩

/-- In every reachable state every worker has what its active attempts need. So
the resources `Workers` lists as available, and the limits any transaction passes
to the placement query, are not negative and fit the columns. -/
theorem resources_conserved [Sha256] (db : Db) (h : Reachable db) :
    (∀ w ∈ db.workers, (db.used w.id).Le w.capacity) ∧
    (∀ v ∈ Store.workers db, v.available.InColumns) ∧
    ∀ (s : Store) (op : Op) (limit : Resources),
      Prog.Executes (.pickJob limit) (op.prog s) db → limit.InColumns := by
  have hp := h.placeable
  refine ⟨hp.conserved, fun v hv => ?_, fun s op limit hex => ?_⟩
  · obtain ⟨w, hw, rfl⟩ := List.mem_map.mp hv
    have hmem := List.mem_of_mem_take hw
    rw [List.mem_insertionSort] at hmem
    exact hp.conserved.available hp.wf hmem
  · exact Prog.Safe.executes (prog_placed hp) hex limit rfl

theorem resources_conserved_sample :
    Sample.worker ∈ Sample.leasedDb.workers ∧
      (Sample.leasedDb.used Sample.worker.id).Le Sample.worker.capacity :=
  ⟨by simp [Sample.leasedDb],
    (@resources_conserved Sample.digest Sample.leasedDb Sample.leased_reachable).1 Sample.worker
      (by simp [Sample.leasedDb])⟩

end Rungrid
