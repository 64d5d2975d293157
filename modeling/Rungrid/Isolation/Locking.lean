-- SUMMARY: The order in which the transactions lock: what a statement waits for, and that every program climbs the order.
import Mathlib.Data.Prod.Lex
import Mathlib.Data.String.Basic
import Rungrid.Isolation.World

/-!
# The order of locks

Advisory locks come first, in the order of their keys, then the receipt, the worker and
the job. What a transaction waits for is above all it holds, or it is guarded: an entry
of the index of idempotency keys is taken under the advisory lock of its key, and an
attempt under the lock of its job. The entries of the other unique indexes of `attempts`
are guarded by the job as well. An object key is taken under the job of the attempt it is
reported for, which guards it from other reports of that attempt only.
-/

namespace Rungrid

open Prog (sql)

/-! ## Statements -/

/-- The locks a statement waits for while another transaction holds them: the rows it
locks or updates, the entries of unique indexes, and the rows its foreign keys refer to.
A query with SKIP LOCKED waits for none. -/
def Stmt.waits (snap : Db) : Stmt → List Lock
  | .lockKey key => [.advisory key]
  | .insertJob id j => [.job id, .key j.idempotencyKey]
  | .insertEvent job attempt _ _ => .job job :: attempt.toList.map .attempt
  | .insertRequest scope id _ | .lockRequest scope id | .setResponse scope id _ => [.request scope id]
  | .lockJob id | .setJob id _ _ | .setJobState id _ => [.job id]
  | .cancelAttempts job =>
      (snap.attempts.filter (fun a => a.jobID = job && a.state.active)).map (fun a => .attempt a.id)
  | .insertWorker r => [.worker r.workerID]
  | .lockWorker id | .touchWorker id | .drainWorker id => [.worker id]
  | .insertAttempt id job worker _ _ _ => [.attempt id, .job job, .worker worker]
  | .lockAttempt id | .renewAttempt id _ | .startAttempt id | .finishAttempt id _ _ _
  | .expireAttempt id => [.attempt id]
  | .insertArtifact id job attempt a => [.artifact id, .object a.objectKey, .job job, .attempt attempt]
  | _ => []

/-- The index entry of a generated id. -/
def Stmt.generates : Stmt → List Lock
  | .insertJob id _ => [.job id]
  | .insertAttempt id .. => [.attempt id]
  | .insertArtifact id .. => [.artifact id]
  | _ => []

/-- The rows the foreign keys of an INSERT refer to. It takes a share lock on each. -/
def Stmt.references : Stmt → List Lock
  | .insertEvent job attempt _ _ => .job job :: attempt.toList.map .attempt
  | .insertAttempt _ job worker _ _ _ => [.job job, .worker worker]
  | .insertArtifact _ job attempt _ => [.job job, .attempt attempt]
  | _ => []

/-- The place of a lock in the order. An attempt has the place of its job; nobody waits for
the locks of the last class. -/
def Lock.rank : Lock → ℕ ×ₗ String
  | .advisory k => toLex (0, k)
  | .request .. => toLex (1, "")
  | .worker _ => toLex (2, "")
  | .job _ | .attempt _ => toLex (3, "")
  | _ => toLex (4, "")

/-- The locks in `L` are below the lock, or are the lock itself. -/
def Lock.Tops (l : Lock) (L : List Lock) : Prop := ∀ h ∈ L, h = l ∨ h.rank < l.rank

/-- The attempt belongs to a job whose row is locked. -/
def Lock.Guarded (L : List Lock) (K : Uuid → Uuid → Prop) (attempt : Uuid) : Prop :=
  ∃ job, K attempt job ∧ .job job ∈ L

/-- What a transaction that holds `L`, knows the jobs `K` of attempts and reports the object
keys `O`, each for an attempt, may execute. -/
def Stmt.Covered (O : List (String × Uuid)) (L : List Lock) (K : Uuid → Uuid → Prop) : Stmt → Prop
  | .lockKey key => (Lock.advisory key).Tops L
  | .insertJob _ j => .advisory j.idempotencyKey ∈ L
  | .insertEvent job attempt _ _ => .job job ∈ L ∧ ∀ a ∈ attempt, Lock.Guarded L K a
  | .insertRequest scope id _ | .lockRequest scope id => (Lock.request scope id).Tops L
  | .setResponse scope id _ => .request scope id ∈ L
  | .lockJob id => (Lock.job id).Tops L
  | .setJob id _ _ | .setJobState id _ | .cancelAttempts id => .job id ∈ L
  | .insertWorker r => (Lock.worker r.workerID).Tops L
  | .lockWorker id => (Lock.worker id).Tops L
  | .touchWorker id | .drainWorker id => .worker id ∈ L
  | .insertAttempt _ job worker _ _ _ => .job job ∈ L ∧ .worker worker ∈ L
  | .lockAttempt id | .renewAttempt id _ | .startAttempt id | .finishAttempt id _ _ _
  | .expireAttempt id => Lock.Guarded L K id
  | .insertArtifact _ job attempt a => (a.objectKey, attempt) ∈ O ∧ .job job ∈ L ∧ Lock.Guarded L K attempt
  | _ => True

/-- The job of an attempt that the result of a statement tells. -/
def Stmt.learns : (s : Stmt) → s.Result → Option (Uuid × Uuid)
  | .attemptJob id, job => job.map (fun j => (id, j))
  | .expiredAttempt job, found => found.map (fun f => (f.1, job))
  | .insertAttempt id job _ _ _ _, _ => some (id, job)
  | _, _ => none

/-- The statement can return `r` and write `ws`. -/
def Stmt.Yields (st : Stmt) (r : st.Result) (ws : List Write) : Prop :=
  ∃ o snap cur, st.eval o snap cur = .ok (r, ws)

/-! ## Programs -/

namespace Prog

variable {α β : Type} {O : List (String × Uuid)} {L L' : List Lock} {K K' : Uuid → Uuid → Prop}

/-- Every statement the program can come to is covered by the locks it has by then. -/
def Orderly (O : List (String × Uuid)) : Prog α → List Lock → (Uuid → Uuid → Prop) → Prop
  | .done _, _, _ => True
  | .fail _, _, _ => True
  | .exec st k, L, K => st.Covered O L K ∧ ∀ r ws, st.Yields r ws →
      (k r).Orderly O (L ++ st.takes r ws) (fun a j => K a j ∨ st.learns r = some (a, j))

theorem guarded_mono {a : Uuid} (h : Lock.Guarded L K a) (hL : L ⊆ L')
    (hK : ∀ a j, K a j → K' a j) : Lock.Guarded L' K' a := by
  obtain ⟨job, hjob, hlock⟩ := h
  exact ⟨job, hK _ _ hjob, hL hlock⟩

theorem covered_mono {st : Stmt} (hK : ∀ a j, K a j → K' a j) (h : st.Covered O L K) :
    st.Covered O L K' := by
  have hguard : ∀ {a : Uuid}, Lock.Guarded L K a → Lock.Guarded L K' a :=
    fun h => guarded_mono h (List.Subset.refl L) hK
  cases st with
  | insertEvent job attempt => exact ⟨h.1, fun a ha => hguard (h.2 a ha)⟩
  | insertArtifact id job attempt a => exact ⟨h.1, h.2.1, hguard h.2.2⟩
  | lockAttempt | renewAttempt | startAttempt | finishAttempt | expireAttempt => exact hguard h
  | _ => exact h

/-- More knowledge does no harm. -/
theorem Orderly.mono {p : Prog α} (h : p.Orderly O L K) (hK : ∀ a j, K a j → K' a j) :
    p.Orderly O L K' := by
  induction p generalizing L K K' with
  | done | fail => trivial
  | exec st k ih =>
      refine ⟨covered_mono hK h.1, fun r ws hws => ?_⟩
      exact ih r (h.2 r ws hws) (fun a j => Or.imp_left (hK a j))

theorem Orderly.bind {p : Prog α} {f : α → Prog β} (hp : p.Orderly O L K)
    (hf : ∀ a L' K', L ⊆ L' → (∀ a j, K a j → K' a j) → (f a).Orderly O L' K') :
    (p >>= f).Orderly O L K := by
  induction p generalizing L K with
  | done a => exact hf a L K (List.Subset.refl L) (fun _ _ h => h)
  | fail e => trivial
  | exec st k ih =>
      refine ⟨hp.1, fun r ws hws => ih r (hp.2 r ws hws) (fun a L' K' hL hK => ?_)⟩
      exact hf a L' K' (List.Subset.trans (List.subset_append_left L _) hL) (fun a j h => hK a j (.inl h))

/-- A statement, with what its result tells about the locks it took. -/
theorem orderly_sql {st : Stmt} {f : st.Result → Prog α} (hst : st.Covered O L K)
    (hf : ∀ r ws, st.Yields r ws → (f r).Orderly O (L ++ st.takes r ws)
      (fun a j => K a j ∨ st.learns r = some (a, j))) : (sql st >>= f).Orderly O L K :=
  ⟨hst, hf⟩

/-- A statement after which only what was held before matters. -/
theorem orderly_under {st : Stmt} {f : st.Result → Prog α} (hst : st.Covered O L K)
    (hf : ∀ r L' K', L ⊆ L' → (∀ a j, K a j → K' a j) → (f r).Orderly O L' K') :
    (sql st >>= f).Orderly O L K :=
  orderly_sql hst (fun r _ _ => hf r _ _ (List.subset_append_left L _) (fun _ _ h => .inl h))

end Prog

/-! ## What statements take -/

section Takes

variable {st : Stmt} {o : Oracle} {snap cur : Db} {l : Lock}

theorem locks_updateRow {ρ : Type} {row : Option ρ} {write : ρ → Write}
    (h : l ∈ (updateRow row write).flatMap Write.locks) : ∃ x, row = some x ∧ l ∈ (write x).locks := by
  cases row with
  | none => cases h
  | some x => exact ⟨x, rfl, by simpa [updateRow] using h⟩

theorem reread_some {ρ : Type} {a b : Option ρ} {x : ρ} (h : reread a b = some x) :
    a.isSome = true ∧ b = some x := by
  cases a with
  | none => cases h
  | some y => exact ⟨rfl, h⟩

theorem takes_request {scope id hash : String} {r : Unit} {ws : List Write}
    (h : (Stmt.insertRequest scope id hash).Yields r ws)
    (hl : l ∈ (Stmt.insertRequest scope id hash).takes r ws) : l = .request scope id := by
  obtain ⟨o, snap, cur, h⟩ := h
  simp only [Stmt.eval] at h
  (repeat' split at h) <;> cases h
  · simp [Stmt.takes, Stmt.selects] at hl
  · simpa [Stmt.takes, Stmt.selects, Write.locks] using hl

theorem takes_lockRequest {scope id : String} {row : Option (String × Option Response)}
    {ws : List Write} (h : (Stmt.lockRequest scope id).Yields row ws) :
    (Stmt.lockRequest scope id).takes row ws = if row.isSome then [.request scope id] else [] := by
  obtain ⟨o, snap, cur, h⟩ := h
  cases h
  simp [Stmt.takes, Stmt.selects]

theorem takes_insertWorker {q : Request} {r : Unit} {ws : List Write}
    (h : (Stmt.insertWorker q).Yields r ws) (hl : l ∈ (Stmt.insertWorker q).takes r ws) :
    l = .worker q.workerID := by
  obtain ⟨o, snap, cur, h⟩ := h
  simp only [Stmt.eval] at h
  (repeat' split at h) <;> cases h
  · simp [Stmt.takes, Stmt.selects] at hl
  · simpa [Stmt.takes, Stmt.selects, Write.locks, Request.newWorker] using hl

theorem takes_lockWorker {id : String} {row : Option WorkerRec} {ws : List Write}
    (h : (Stmt.lockWorker id).Yields row ws) :
    (Stmt.lockWorker id).takes row ws = if row.isSome then [.worker id] else [] := by
  obtain ⟨o, snap, cur, h⟩ := h
  cases h
  simp [Stmt.takes, Stmt.selects]

theorem takes_touchWorker {id : String} {r : Unit} {ws : List Write}
    (h : (Stmt.touchWorker id).Yields r ws) (hl : l ∈ (Stmt.touchWorker id).takes r ws) :
    l = .worker id := by
  obtain ⟨o, snap, cur, h⟩ := h
  cases h
  obtain ⟨w, hw, hl⟩ := locks_updateRow (by simpa [Stmt.takes, Stmt.selects] using hl)
  have hid : w.id = id := Table.key_of_find (reread_some hw).2
  simpa [Write.locks, hid] using hl

theorem takes_lockJob {id : Uuid} {row : Option JobRow} {ws : List Write}
    (h : (Stmt.lockJob id).Yields row ws) :
    (Stmt.lockJob id).takes row ws = (if row.isSome then [.job id] else []) ∧
      ∀ j, row = some j → j.id = id := by
  obtain ⟨o, snap, cur, h⟩ := h
  cases h
  refine ⟨by simp [Stmt.takes, Stmt.selects], fun j hj => ?_⟩
  obtain ⟨rec, hrec, rfl⟩ := Option.map_eq_some_iff.mp hj
  have hid : rec.id = id := Table.key_of_find (reread_some hrec).2
  exact hid

theorem takes_insertJob {id : Uuid} {j : Job} {ws : List Write}
    (h : (Stmt.insertJob id j).Yields true ws) : .job id ∈ (Stmt.insertJob id j).takes true ws := by
  obtain ⟨o, snap, cur, h⟩ := h
  simp only [Stmt.eval] at h
  (repeat' split at h) <;> cases h
  simp [Stmt.takes, Write.locks, Job.newRow]

end Takes

/-! ## The programs of the store -/

section Programs

open Prog

variable {O : List (String × Uuid)} {L : List Lock} {K : Uuid → Uuid → Prop} {m : Method} {r : Request}
  {s : Store}

theorem accept_orderly {job attempt : Uuid} (hjob : .job job ∈ L) (hK : K attempt job) :
    (Store.accept m r job attempt).Orderly O L K := by
  refine orderly_under ⟨hjob, fun a ha => ?_⟩ (fun _ _ _ _ _ => trivial)
  cases ha
  exact ⟨job, hK, hjob⟩

theorem finish_orderly {job attempt : Uuid} {state : AttemptState} {next : JobState}
    (hjob : .job job ∈ L) (hK : K attempt job) :
    (Store.finish m r job attempt state next).Orderly O L K := by
  refine orderly_under ⟨job, hK, hjob⟩ (fun _ L₁ K₁ hL hK₁ => ?_)
  refine orderly_under (hL hjob) (fun _ L₂ K₂ hL' hK₂ => ?_)
  exact accept_orderly (hL' (hL hjob)) (hK₂ _ _ (hK₁ _ _ hK))

theorem recordArtifacts_orderly {scope : String} {job attempt : Uuid} {xs : List Artifact}
    (hjob : .job job ∈ L) (hK : K attempt job) (hO : ∀ x ∈ xs, (x.objectKey, attempt) ∈ O) :
    (Store.recordArtifacts scope job attempt xs).Orderly O L K := by
  induction xs generalizing L K with
  | nil => trivial
  | cons x xs ih =>
      have hO' := fun y hy => hO y (List.mem_cons_of_mem x hy)
      unfold Store.recordArtifacts
      split
      · trivial
      refine orderly_under trivial (fun existing L₁ K₁ hL hK₁ => ?_)
      split
      · split
        · trivial
        · exact ih (hL hjob) (hK₁ _ _ hK) hO'
      · refine orderly_under trivial (fun id L₂ K₂ hL' hK₂ => ?_)
        have hjob' := hL' (hL hjob)
        have hK' := hK₂ _ _ (hK₁ _ _ hK)
        refine orderly_under ⟨hO x List.mem_cons_self, hjob', job, hK', hjob'⟩
          (fun _ L₃ K₃ hL'' hK₃ => ?_)
        exact ih (hL'' hjob') (hK₃ _ _ hK') hO'

theorem attemptBody_orderly {j : JobRow} {attempt : Uuid} {c : AttemptCheck} (hjob : .job j.id ∈ L)
    (hK : K attempt j.id) (hO : ∀ x ∈ r.artifacts.elems, (x.objectKey, attempt) ∈ O) :
    (s.attemptBody m r j attempt c).Orderly O L K := by
  have hreport : ∀ {k : Unit → Prog Response},
      (∀ L' K', L ⊆ L' → (∀ a j, K a j → K' a j) → (k ()).Orderly O L' K') →
      (if c.state ≠ .running then .fail (.conflict none)
        else if !Store.reportOk r then .fail (.invalid none)
        else Store.recordArtifacts (Store.keyScope j.definition j.id r.attemptID) j.id attempt
          r.artifacts.elems >>= k : Prog Response).Orderly O L K := by
    intro k hk
    split
    · trivial
    split
    · trivial
    · exact Orderly.bind (recordArtifacts_orderly hjob hK hO) (fun _ => hk)
  cases m with
  | heartbeat =>
      refine orderly_under ⟨j.id, hK, hjob⟩ (fun renewed _ _ _ _ => ?_)
      split <;> trivial
  | startAttempt =>
      have haccept : ∀ {L' K'}, L ⊆ L' → (∀ a j, K a j → K' a j) →
          (Store.accept .startAttempt r j.id attempt).Orderly O L' K' :=
        fun hL hK' => accept_orderly (hL hjob) (hK' _ _ hK)
      unfold Store.attemptBody
      dsimp only
      split
      · refine orderly_under ⟨j.id, hK, hjob⟩ (fun _ L₁ K₁ hL hK₁ => ?_)
        refine orderly_under (hL hjob) (fun _ L₂ K₂ hL' hK₂ => ?_)
        exact haccept (List.Subset.trans hL hL') (fun a j h => hK₂ _ _ (hK₁ _ _ h))
      · exact haccept (List.Subset.refl L) (fun _ _ h => h)
  | reportProgress => exact hreport (fun L' K' hL hK' => accept_orderly (hL hjob) (hK' _ _ hK))
  | completeAttempt =>
      refine hreport (fun L' K' hL hK' => ?_)
      dsimp only
      split
      · trivial
      · exact finish_orderly (hL hjob) (hK' _ _ hK)
  | failAttempt => exact hreport (fun L' K' hL hK' => finish_orderly (hL hjob) (hK' _ _ hK))
  | _ => trivial

/-- The object keys of a report, with the attempt it is for. -/
def Request.reports (r : Request) : List (String × Uuid) :=
  (Uuid.parse r.attemptID).toList.flatMap
    (fun id => r.artifacts.elems.map (fun x => (x.objectKey, id)))

theorem Request.mem_reports {k : String} {a : Uuid} (h : (k, a) ∈ r.reports) :
    Uuid.parse r.attemptID = some a := by
  obtain ⟨id, hid, hmem⟩ := List.mem_flatMap.mp h
  obtain ⟨x, -, hx⟩ := List.mem_map.mp hmem
  cases hx
  exact Option.mem_toList.mp hid

/-- The locks are below every job. -/
def BelowJobs (L : List Lock) : Prop := ∀ h ∈ L, h.rank < toLex (3, "")

theorem BelowJobs.tops (h : BelowJobs L) (id : Uuid) : (Lock.job id).Tops L :=
  fun l hl => .inr (h l hl)

theorem attempt_orderly (hL : BelowJobs L) (hO : r.reports ⊆ O) :
    (s.attempt m r).Orderly O L K := by
  unfold Store.attempt
  split
  · rename_i attemptID _ hattempt _
    have hO' : ∀ x ∈ r.artifacts.elems, (x.objectKey, attemptID) ∈ O := by
      intro x hx
      refine hO ?_
      simp only [Request.reports, hattempt, Option.toList_some, List.flatMap_singleton]
      exact List.mem_map_of_mem hx
    refine orderly_sql trivial (fun owner ws hws => ?_)
    have hnone : (Stmt.attemptJob attemptID).takes owner ws = [] := by
      obtain ⟨o, snap, cur, he⟩ := hws
      cases he
      rfl
    rw [hnone, List.append_nil]
    split
    · trivial
    · rename_i jobID
      refine orderly_sql (hL.tops jobID) (fun row ws hws => ?_)
      obtain ⟨htakes, hid⟩ := takes_lockJob hws
      rw [htakes]
      split
      · trivial
      · rename_i j
        have hjob : Lock.job j.id ∈ L ++ [Lock.job jobID] := by
          rw [hid j rfl]
          exact List.mem_append_right L List.mem_cons_self
        have hK : (Stmt.attemptJob attemptID).learns (some jobID) = some (attemptID, j.id) := by
          rw [hid j rfl]
          rfl
        refine orderly_under ⟨j.id, .inl (.inr hK), hjob⟩ (fun checked L' K' hL' hK' => ?_)
        split
        · trivial
        split
        · trivial
        · exact attemptBody_orderly (hL' hjob) (hK' _ _ (.inl (.inr hK))) hO'
  · trivial

theorem lease_orderly {cap : Resources} (hworker : .worker r.workerID ∈ L) :
    (s.lease r cap).Orderly O L K := by
  refine orderly_under trivial (fun used L₁ K₁ hL₁ _ => ?_)
  refine orderly_sql trivial (fun found ws _ => ?_)
  split
  · trivial
  · rename_i j _
    have hjob : Lock.job j.id ∈ L₁ ++ (Stmt.pickJob (cap.sub used)).takes (some j) ws :=
      List.mem_append_right L₁ (List.mem_append_left _ List.mem_cons_self)
    have hworker₁ := List.mem_append_left ((Stmt.pickJob (cap.sub used)).takes (some j) ws)
      (hL₁ hworker)
    refine orderly_under trivial (fun attemptID L₂ K₂ hL₂ _ => ?_)
    refine orderly_under trivial (fun token L₃ K₃ hL₃ _ => ?_)
    have hjob₃ := hL₃ (hL₂ hjob)
    refine orderly_sql ⟨hjob₃, hL₃ (hL₂ hworker₁)⟩ (fun leased ws₄ _ => ?_)
    obtain ⟨number, expires, now⟩ := leased
    have hjob₄ := List.mem_append_left ((Stmt.insertAttempt attemptID j.id r.workerID token
      s.leaseSeconds j.definition.timeoutSeconds).takes (number, expires, now) ws₄) hjob₃
    dsimp only
    split
    · trivial
    refine orderly_under hjob₄ (fun _ L₅ K₅ hL₅ hK₅ => ?_)
    refine orderly_under trivial (fun _ L₆ K₆ hL₆ hK₆ => ?_)
    refine orderly_under ⟨hL₆ (hL₅ hjob₄), fun a ha => ?_⟩ (fun _ _ _ _ _ => trivial)
    cases ha
    exact ⟨j.id, hK₆ _ _ (hK₅ _ _ (.inr rfl)), hL₆ (hL₅ hjob₄)⟩

/-- The locks are receipts. -/
def Receipts (L : List Lock) : Prop := ∀ h ∈ L, ∃ scope id, h = .request scope id

theorem Receipts.below (h : Receipts L) : ∀ l ∈ L, l.rank < toLex (2, "") := by
  intro l hl
  obtain ⟨scope, id, rfl⟩ := h l hl
  exact Prod.Lex.toLex_lt_toLex.mpr (.inl (by decide))

theorem rank_lt {n k : Nat} (h : n < k) : (toLex (n, "") : ℕ ×ₗ String) < toLex (k, "") :=
  Prod.Lex.toLex_lt_toLex.mpr (.inl h)

theorem workerBody_orderly (hL : Receipts L) (hO : r.reports ⊆ O) :
    (s.workerBody m r).Orderly O L K := by
  refine orderly_sql (fun l hl => .inr (hL.below l hl)) (fun row ws hws => ?_)
  rw [takes_lockWorker hws]
  split
  · trivial
  split
  · trivial
  have hworker : Lock.worker r.workerID ∈ L ++ [.worker r.workerID] :=
    List.mem_append_right L List.mem_cons_self
  refine orderly_sql hworker (fun _ ws' hws' => ?_)
  have hbelow : BelowJobs (L ++ [.worker r.workerID] ++ (Stmt.touchWorker r.workerID).takes () ws') := by
    intro l hl
    rcases List.mem_append.mp hl with hl | hl
    · rcases List.mem_append.mp hl with hl | hl
      · exact (hL.below l hl).trans (rank_lt (by decide))
      · rw [List.mem_singleton.mp hl]
        exact rank_lt (by decide)
    · rw [takes_touchWorker hws' hl]
      exact rank_lt (by decide)
  have hworker' := List.mem_append_left ((Stmt.touchWorker r.workerID).takes () ws') hworker
  cases m with
  | leaseJob =>
      dsimp only
      split
      · trivial
      · exact lease_orderly hworker'
  | releaseWorker => exact orderly_under hworker' (fun _ _ _ _ _ => trivial)
  | heartbeat =>
      dsimp only
      split
      · trivial
      · exact attempt_orderly hbelow hO
  | startAttempt | reportProgress | completeAttempt | failAttempt => exact attempt_orderly hbelow hO
  | registerWorker | unknown => trivial

theorem registerBody_orderly (hL : Receipts L) : (Store.registerBody r).Orderly O L K := by
  unfold Store.registerBody
  split
  · trivial
  refine orderly_sql (fun l hl => .inr (hL.below l hl)) (fun _ ws hws => ?_)
  refine orderly_under (fun l hl => ?_) (fun row _ _ _ _ => ?_)
  · rcases List.mem_append.mp hl with hl | hl
    · exact .inr (hL.below l hl)
    · exact .inl (takes_insertWorker hws hl)
  · split
    · trivial
    · split <;> trivial

theorem rpcBody_orderly (hL : Receipts L) (hO : r.reports ⊆ O) :
    (s.rpcBody m r).Orderly O L K := by
  have hbody : (s.workerBody m r).Orderly O L K := workerBody_orderly hL hO
  cases m with
  | registerWorker => exact registerBody_orderly hL
  | _ => exact hbody

theorem mutate_orderly [Sha256] {scope id : String} {payload : Json} {fn : Prog Response}
    (hfn : ∀ L K, Receipts L → fn.Orderly O L K) :
    (Store.mutate scope id payload fn).Orderly O [] K := by
  unfold Store.mutate
  split
  · trivial
  refine orderly_sql (List.forall_mem_nil _) (fun _ ws hws => ?_)
  refine orderly_sql (fun l hl => .inl (takes_request hws hl)) (fun row ws' hws' => ?_)
  rw [takes_lockRequest hws', List.nil_append]
  split
  · trivial
  split
  · trivial
  split
  · trivial
  · refine Orderly.bind (hfn _ _ (fun l hl => ?_)) (fun _ L' K' hL _ => ?_)
    · rcases List.mem_append.mp hl with hl | hl
      · exact ⟨scope, id, takes_request hws hl⟩
      · exact ⟨scope, id, List.mem_singleton.mp hl⟩
    · exact orderly_under (hL (List.mem_append_right _ List.mem_cons_self)) (fun _ _ _ _ _ => trivial)

theorem finishAction_orderly {id : Uuid} {a : Action} {requestID : String} {state : JobState}
    {max : Int} (hjob : .job id ∈ L) :
    (Store.finishAction id a requestID state max).Orderly O L K := by
  refine orderly_under hjob (fun _ L₁ _ hL₁ _ => ?_)
  refine orderly_under ⟨hL₁ hjob, fun a ha => by cases ha⟩ (fun _ L₂ _ hL₂ _ => ?_)
  refine orderly_under trivial (fun row _ _ _ _ => ?_)
  split <;> trivial

theorem actionBody_orderly {id : String} {a : Action} {requestID : String} (hL : Receipts L) :
    (Store.actionBody id a requestID).Orderly O L K := by
  have hbelow : BelowJobs L := fun l hl => (hL.below l hl).trans (rank_lt (by decide))
  unfold Store.actionBody
  split
  · trivial
  · rename_i jobID _
    refine orderly_sql (hbelow.tops jobID) (fun row ws hws => ?_)
    rw [(takes_lockJob hws).1]
    split
    · trivial
    · have hjob : Lock.job jobID ∈ L ++ [.job jobID] := List.mem_append_right L List.mem_cons_self
      split
      · split
        · trivial
        dsimp only
        split
        · exact orderly_under hjob (fun _ _ _ hL' _ => finishAction_orderly (hL' hjob))
        · exact finishAction_orderly hjob
      · split
        · trivial
        · exact finishAction_orderly hjob
      · trivial

theorem reapLoop_orderly {ids : List Uuid} {n : Nat} (hids : ∀ id ∈ ids, .job id ∈ L) :
    (Store.reapLoop ids n).Orderly O L K := by
  induction ids generalizing L K n with
  | nil => trivial
  | cons id ids ih =>
      have hjob := hids id List.mem_cons_self
      have hrest : ∀ {L'}, L ⊆ L' → ∀ i ∈ ids, .job i ∈ L' :=
        fun hL i hi => hL (hids i (List.mem_cons_of_mem id hi))
      refine orderly_sql trivial (fun found ws _ => ?_)
      have hL := List.subset_append_left L ((Stmt.expiredAttempt id).takes found ws)
      split
      · exact ih (hrest hL)
      · rename_i attemptID number max
        refine orderly_under ⟨id, .inr rfl, hL hjob⟩ (fun _ L₁ K₁ hL₁ hK₁ => ?_)
        refine orderly_under (hL₁ (hL hjob)) (fun _ L₂ K₂ hL₂ hK₂ => ?_)
        have hjob₂ := hL₂ (hL₁ (hL hjob))
        refine orderly_under ⟨hjob₂, fun a ha => ?_⟩ (fun _ L₃ _ hL₃ _ => ?_)
        · cases ha
          exact ⟨id, hK₂ _ _ (hK₁ _ _ (.inr rfl)), hjob₂⟩
        · exact ih (fun i hi => hL₃ (hL₂ (hL₁ (hrest hL i hi))))

theorem reap_orderly : Store.reap.Orderly O [] K := by
  refine orderly_sql trivial (fun ids ws _ => ?_)
  refine reapLoop_orderly (fun id hid => ?_)
  exact List.mem_append_right _ (List.mem_append_left _ (List.mem_map_of_mem hid))

theorem submitLoop_orderly {js : List Job} {out : List JobRow}
    (hkeys : ∀ j ∈ js, .advisory j.idempotencyKey ∈ L) :
    (Store.submitLoop js out).Orderly O L K := by
  induction js generalizing L K out with
  | nil => trivial
  | cons j js ih =>
      have hrest : ∀ {L'}, L ⊆ L' → ∀ i ∈ js, .advisory i.idempotencyKey ∈ L' :=
        fun hL i hi => hL (hkeys i (List.mem_cons_of_mem j hi))
      refine orderly_under trivial (fun id L₁ K₁ hL₁ _ => ?_)
      refine orderly_sql (hL₁ (hkeys j List.mem_cons_self)) (fun inserted ws hws => ?_)
      have hL₂ := List.Subset.trans hL₁
        (List.subset_append_left L₁ ((Stmt.insertJob id j).takes inserted ws))
      refine orderly_under trivial (fun found L₃ K₃ hL₃ _ => ?_)
      split
      · trivial
      split
      · trivial
      dsimp only
      split
      · rename_i htrue
        subst htrue
        refine orderly_under ⟨hL₃ (List.mem_append_right L₁ (takes_insertJob hws)), fun a ha => by cases ha⟩
          (fun _ L₄ _ hL₄ _ => ih (hrest (List.Subset.trans hL₂ (List.Subset.trans hL₃ hL₄))))
      · exact ih (hrest (List.Subset.trans hL₂ hL₃))

/-- The keys are locked in their order. -/
theorem lockKeys_orderly {α : Type} {keys : List String} {f : Unit → Prog α}
    (hsorted : keys.Pairwise (· ≤ ·))
    (hL : ∀ h ∈ L, ∃ k, h = .advisory k ∧ ∀ key ∈ keys, k ≤ key)
    (hf : ∀ L' K', L ⊆ L' → (∀ key ∈ keys, .advisory key ∈ L') → (f ()).Orderly O L' K') :
    (Store.lockKeys keys >>= f).Orderly O L K := by
  induction keys generalizing L K with
  | nil => exact hf L K (List.Subset.refl L) (List.forall_mem_nil _)
  | cons key keys ih =>
      obtain ⟨hle, hsorted⟩ := List.pairwise_cons.mp hsorted
      refine ⟨fun l hl => ?_, fun _ ws hws => ?_⟩
      · obtain ⟨k, rfl, hk⟩ := hL l hl
        rcases eq_or_lt_of_le (hk key List.mem_cons_self) with rfl | hlt
        · exact .inl rfl
        · exact .inr (Prod.Lex.toLex_lt_toLex.mpr (.inr ⟨rfl, hlt⟩))
      · have htakes : (Stmt.lockKey key).takes () ws = [.advisory key] := by
          obtain ⟨o, snap, cur, he⟩ := hws
          simp only [Stmt.eval] at he
          split at he <;> cases he
          rfl
        change (Store.lockKeys keys >>= f).Orderly O _ _
        rw [htakes]
        refine ih hsorted (fun l hl => ?_) (fun L' K' hL' hkeys => hf L' K' ?_ ?_)
        · rcases List.mem_append.mp hl with hl | hl
          · obtain ⟨k, rfl, hk⟩ := hL l hl
            exact ⟨k, rfl, fun i hi => hk i (List.mem_cons_of_mem key hi)⟩
          · exact ⟨key, List.mem_singleton.mp hl, hle⟩
        · exact List.Subset.trans (List.subset_append_left L _) hL'
        · refine List.forall_mem_cons.mpr ⟨?_, hkeys⟩
          exact hL' (List.mem_append_right L List.mem_cons_self)

theorem submit_orderly {jobs : List Job} : (Store.submit jobs).Orderly O [] K := by
  unfold Store.submit
  split
  · trivial
  split
  · trivial
  · refine lockKeys_orderly (List.pairwise_insertionSort _ _) (List.forall_mem_nil _)
      (fun L' K' _ hkeys => submitLoop_orderly (fun j hj => hkeys _ ?_))
    exact (List.perm_insertionSort _ _).mem_iff.mpr (List.mem_map_of_mem hj)

end Programs

/-- The object keys an operation reports, each with the attempt. -/
def Op.reports : Op → List (String × Uuid)
  | .rpc _ r => r.reports
  | _ => []

/-- Every transaction of the store climbs the order. -/
theorem Op.orderly [Sha256] (s : Store) (op : Op) (K : Uuid → Uuid → Prop) :
    (op.prog s).Orderly op.reports [] K := by
  cases op with
  | submit jobs => exact Prog.Orderly.bind submit_orderly (fun _ _ _ _ _ => trivial)
  | rpc m r =>
      refine Prog.Orderly.bind ?_ (fun _ _ _ _ _ => trivial)
      unfold Store.rpc
      split
      · trivial
      · exact mutate_orderly (fun L K hL => rpcBody_orderly hL (List.Subset.refl _))
  | action id a requestID =>
      exact Prog.Orderly.bind (mutate_orderly (fun L K hL => actionBody_orderly hL))
        (fun _ _ _ _ _ => trivial)
  | reap => exact Prog.Orderly.bind reap_orderly (fun _ _ _ _ _ => trivial)

end Rungrid
