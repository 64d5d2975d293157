-- SUMMARY: The order of locks through every interleaving: attempts keep their jobs and no lock is taken without its guard.
import Rungrid.Isolation.Locking
import Rungrid.Lifecycle.Integrity

/-!
# The order in every interleaving

What every program keeps to is kept in every world: each transaction under way has its
remaining statements covered by its locks, and whoever holds an attempt holds the job the
attempt belongs to. That job is the same for all transactions, because an attempt never
changes its job.
-/

namespace Rungrid

/-! ## The job of an attempt -/

/-- The rows of an attempt. -/
def Db.rowsOf (db : Db) (id : Uuid) : List AttemptRec := db.attempts.filter (fun a => a.id = id)

/-- The attempt is stored, and it belongs to the job. -/
def Db.Assigns (db : Db) (id job : Uuid) : Prop :=
  db.rowsOf id ≠ [] ∧ ∀ a ∈ db.rowsOf id, a.jobID = job

/-- Every attempt of `A` is in `B`, for the same job. -/
def Db.Retains (A B : Db) : Prop := ∀ a ∈ A.attempts, B.Assigns a.id a.jobID

section Rows

variable {A B C X Y : Db} {id job : Uuid}

theorem Db.mem_rowsOf {a : AttemptRec} : a ∈ X.rowsOf id ↔ a ∈ X.attempts ∧ a.id = id := by
  simp [rowsOf]

theorem Db.Assigns.exists (h : X.Assigns id job) : ∃ a ∈ X.attempts, a.id = id ∧ a.jobID = job := by
  obtain ⟨a, ha⟩ := List.exists_mem_of_ne_nil _ h.1
  exact ⟨a, (mem_rowsOf.mp ha).1, (mem_rowsOf.mp ha).2, h.2 a ha⟩

theorem Db.Assigns.unique {job' : Uuid} (h : X.Assigns id job) (h' : X.Assigns id job') :
    job = job' := by
  obtain ⟨a, ha⟩ := List.exists_mem_of_ne_nil _ h.1
  exact (h.2 a ha).symm.trans (h'.2 a ha)

theorem Db.Retains.assigns (h : A.Retains B) (ha : A.Assigns id job) : B.Assigns id job := by
  obtain ⟨a, hmem, rfl, rfl⟩ := ha.exists
  exact h a hmem

theorem Db.Retains.trans (h : A.Retains B) (h' : B.Retains C) : A.Retains C :=
  fun a ha => h'.assigns (h a ha)

theorem Db.rowsOf_insert (X : Db) (r : AttemptRec) (id : Uuid) :
    (X.apply (.insertAttempt r)).rowsOf id = X.rowsOf id ++ (if r.id = id then [r] else []) := by
  change (X.attempts ++ [r]).filter _ = _
  rw [List.filter_append]
  congr 1
  by_cases h : r.id = id <;> simp [h]

theorem Db.rowsOf_put (X : Db) (r : AttemptRec) (id : Uuid) :
    (X.apply (.putAttempt r)).rowsOf id
      = if r.id = id then (X.rowsOf id).map (fun _ => r) else X.rowsOf id := by
  change (X.attempts.map _).filter _ = _
  have hfilter : ∀ a : AttemptRec, (decide ((if a.id = r.id then r else a).id = id)) = decide (a.id = id) := by
    intro a
    split
    · rename_i ha
      rw [ha]
    · rfl
  rw [List.filter_map]
  simp only [Function.comp_def, hfilter]
  change (X.rowsOf id).map _ = _
  split
  · rename_i hr
    refine List.map_congr_left (fun a ha => if_pos ?_)
    rw [(mem_rowsOf.mp ha).2, hr]
  · rename_i hr
    refine (List.map_congr_left (fun a ha => if_neg ?_)).trans (List.map_id _)
    rw [(mem_rowsOf.mp ha).2]
    exact fun h => hr h.symm

/-- The rows of an attempt after a write are a function of its rows before. -/
theorem Db.rowsOf_congr (h : X.rowsOf id = Y.rowsOf id) (ws : List Write) :
    (X.applyAll ws).rowsOf id = (Y.applyAll ws).rowsOf id := by
  induction ws generalizing X Y with
  | nil => exact h
  | cons v ws ih =>
      rw [applyAll_cons, applyAll_cons]
      refine ih ?_
      cases v with
      | insertAttempt r => rw [rowsOf_insert, rowsOf_insert, h]
      | putAttempt r => rw [rowsOf_put, rowsOf_put, h]
      | _ => exact h

theorem Db.rowsOf_frame {ws : List Write} (h : .attempt id ∉ ws.flatMap Write.locks) :
    (X.applyAll ws).rowsOf id = X.rowsOf id := by
  induction ws generalizing X with
  | nil => rfl
  | cons v ws ih =>
      rw [List.flatMap_cons, List.mem_append, not_or] at h
      rw [applyAll_cons, ih h.2]
      cases v with
      | insertAttempt r =>
          have hne : r.id ≠ id := fun he => h.1 (by simp [Write.locks, he])
          rw [rowsOf_insert, if_neg hne, List.append_nil]
      | putAttempt r =>
          have hne : r.id ≠ id := fun he => h.1 (by simp [Write.locks, he])
          rw [rowsOf_put, if_neg hne]
      | _ => rfl

/-- The write leaves the job of every attempt of `X`. -/
def Write.Keeps (X : Db) : Write → Prop
  | .putAttempt r => X.Assigns r.id r.jobID
  | .insertAttempt r => X.rowsOf r.id = []
  | _ => True

theorem Db.Retains.apply {v : Write} (h : X.Retains X) (hv : v.Keeps X) :
    X.Retains (X.apply v) ∧ (X.apply v).Retains (X.apply v) := by
  cases v with
  | putAttempt r =>
      have hassign : ∀ {id job}, X.Assigns id job → (X.apply (.putAttempt r)).Assigns id job := by
        intro id job ha
        unfold Assigns
        rw [rowsOf_put]
        split
        · rename_i hid
          subst hid
          have hjob := Assigns.unique hv ha
          simp [ha.1, hjob]
        · exact ha
      refine ⟨fun a ha => hassign (h a ha), fun a ha => ?_⟩
      obtain ⟨b, hb, rfl⟩ := List.mem_map.mp ha
      split
      · exact hassign hv
      · exact hassign (h b hb)
  | insertAttempt r =>
      have hassign : ∀ {id job}, X.Assigns id job → (X.apply (.insertAttempt r)).Assigns id job := by
        intro id job ha
        have hne : r.id ≠ id := fun hid => ha.1 (hid ▸ hv)
        unfold Assigns
        rw [rowsOf_insert, if_neg hne, List.append_nil]
        exact ha
      refine ⟨fun a ha => hassign (h a ha), fun a ha => ?_⟩
      rcases List.mem_append.mp ha with ha | ha
      · exact hassign (h a ha)
      · obtain rfl := List.mem_singleton.mp ha
        have hnil : X.rowsOf a.id = [] := hv
        unfold Assigns
        rw [rowsOf_insert, hnil]
        simp
  | _ => exact ⟨h, h⟩

theorem Db.Retains.applyAll {ws : List Write} (h : X.Retains X)
    (hws : ∀ v ∈ ws, ∀ Y, X.Retains Y → v.Keeps Y) :
    X.Retains (X.applyAll ws) ∧ (X.applyAll ws).Retains (X.applyAll ws) := by
  induction ws generalizing X with
  | nil => exact ⟨h, h⟩
  | cons v ws ih =>
      obtain ⟨hret, hself⟩ := h.apply (hws v List.mem_cons_self X h)
      obtain ⟨hret', hself'⟩ := ih hself (fun u hu Y hY =>
        hws u (List.mem_cons_of_mem v hu) Y (hret.trans hY))
      exact ⟨hret.trans hret', hself'⟩

end Rows

/-! ## Statements -/

section Statements

variable {st : Stmt} {o : Oracle} {S X : Db} {r : st.Result} {ws : List Write}

theorem Db.rowsOf_of_not_taken {id job : Uuid} {number : Int}
    (h : X.attemptTaken id job number = false) : X.rowsOf id = [] := by
  simp only [attemptTaken, List.any_eq_false, Bool.or_eq_true, not_or, decide_eq_true_eq] at h
  exact List.filter_eq_nil_iff.mpr (fun a ha => by simpa using (h a ha).1)

theorem Db.mem_cancellable {job : Uuid} {a : AttemptRec} (ha : a ∈ S.cancellable X job) :
    a ∈ X.attempts ∧ a.jobID = job := by
  simp only [cancellable, List.mem_filter, List.mem_filterMap, Bool.and_eq_true,
    decide_eq_true_eq] at ha
  obtain ⟨⟨b, -, hb⟩, hjob, -⟩ := ha
  exact ⟨Table.mem_of_find hb, hjob⟩

/-- An update of the row of an attempt, as the statements make it. -/
theorem updateRow_attempt {id : Uuid} {f : AttemptRec → AttemptRec} {v : Write}
    (hv : v ∈ updateRow (reread (S.attempt? id) (X.attempt? id)) (fun a => .putAttempt (f a))) :
    ∃ a ∈ X.attempts, a.id = id ∧ v = .putAttempt (f a) := by
  obtain ⟨a, ha, rfl⟩ := Option.map_eq_some_iff.mp (Option.mem_toList.mp hv)
  have hfind := (reread_some ha).2
  exact ⟨a, Table.mem_of_find hfind, Table.key_of_find hfind, rfl⟩

/-- Every statement leaves the attempts to their jobs. -/
theorem Stmt.keeps (h : X.Retains X) (he : st.eval o S X = .ok (r, ws)) :
    X.Retains (X.applyAll ws) ∧ (X.applyAll ws).Retains (X.applyAll ws) := by
  have hput : ∀ {id : Uuid} (f : AttemptRec → AttemptRec),
      (∀ a, (f a).id = a.id ∧ (f a).jobID = a.jobID) → ∀ v ∈ updateRow
        (reread (S.attempt? id) (X.attempt? id)) (fun a => .putAttempt (f a)),
      ∀ Y, X.Retains Y → v.Keeps Y := by
    intro id f hf v hv Y hY
    obtain ⟨a, ha, -, rfl⟩ := updateRow_attempt hv
    change Y.Assigns (f a).id (f a).jobID
    rw [(hf a).1, (hf a).2]
    exact hY a ha
  cases st with
  | insertAttempt id job worker token lease timeout =>
      simp only [Stmt.eval] at he
      (repeat' split at he) <;> cases he
      rename_i htaken _
      have hnil : X.rowsOf id = [] := Db.rowsOf_of_not_taken (by simpa using htaken)
      exact h.apply (v := .insertAttempt _) hnil
  | renewAttempt id lease =>
      cases he
      exact h.applyAll (hput (fun a => a.renew lease (o.clock 0)) (fun a => ⟨rfl, rfl⟩))
  | startAttempt id =>
      cases he
      exact h.applyAll (hput (fun a => a.start (o.clock 0)) (fun a => ⟨rfl, rfl⟩))
  | expireAttempt id =>
      cases he
      exact h.applyAll (hput (fun a => a.expire (o.clock 0)) (fun a => ⟨rfl, rfl⟩))
  | finishAttempt id state exitCode reason =>
      simp only [Stmt.eval] at he
      (repeat' split at he) <;> cases he
      exact h.applyAll (hput (fun a => a.finish state exitCode reason (o.clock 0))
        (fun a => ⟨rfl, rfl⟩))
  | cancelAttempts job =>
      cases he
      refine h.applyAll (fun v hv Y hY => ?_)
      obtain ⟨i, hi, rfl⟩ := List.mem_mapIdx.mp hv
      have hassign := hY _ (Db.mem_cancellable (List.getElem_mem hi)).1
      exact hassign
  | _ =>
      simp only [Stmt.eval] at he
      (repeat' split at he) <;> cases he <;> refine h.applyAll (fun v hv Y _ => ?_) <;>
        first
        | exact absurd hv List.not_mem_nil
        | (obtain rfl := List.mem_singleton.mp hv; trivial)
        | (obtain ⟨x, -, rfl⟩ := Option.map_eq_some_iff.mp (Option.mem_toList.mp hv); trivial)

/-- What a statement tells about the job of an attempt is so. -/
theorem Stmt.learns_assigns {a j : Uuid} (hS : S.Retains X) (h : X.Retains X)
    (he : st.eval o S X = .ok (r, ws)) (hlearn : st.learns r = some (a, j)) :
    (X.applyAll ws).Assigns a j := by
  have hkeeps := (Stmt.keeps h he).1
  cases st with
  | attemptJob id =>
      cases he
      obtain ⟨job, hjob, heq⟩ := Option.map_eq_some_iff.mp hlearn
      obtain ⟨row, hrow, rfl⟩ := Option.map_eq_some_iff.mp hjob
      cases heq
      have hassign := hS row (Table.mem_of_find hrow)
      rwa [show row.id = a from Table.key_of_find hrow] at hassign
  | expiredAttempt job =>
      cases he
      obtain ⟨found, hfound, heq⟩ := Option.map_eq_some_iff.mp hlearn
      obtain ⟨row, hrow, hmax⟩ := Option.bind_eq_some_iff.mp hfound
      obtain ⟨rec, -, rfl⟩ := Option.map_eq_some_iff.mp hmax
      cases heq
      have hassign := hS row (List.mem_of_find?_eq_some hrow)
      have hjob : row.jobID = j ∧ row.expiredAt (o.clock 0) = true := by
        simpa using List.find?_some hrow
      rwa [hjob.1] at hassign
  | insertAttempt id job worker token lease timeout =>
      have hself := (Stmt.keeps h he).2
      simp only [Stmt.eval] at he
      (repeat' split at he) <;> cases he
      cases hlearn
      exact hself _ (List.mem_append_right X.attempts List.mem_cons_self)
  | _ => cases hlearn

end Statements

/-! ## Guarded locks -/

/-- The locks that have a guard instead of a place in the order. -/
def Lock.leaf : Lock → Bool
  | .attempt _ | .key _ | .object _ => true
  | _ => false

/-- The guard of the lock is held, too. -/
def Lock.Secured (O : List (String × Uuid)) (L : List Lock) (K : Uuid → Uuid → Prop) : Lock → Prop
  | .attempt id => Lock.Guarded L K id
  | .key k => .advisory k ∈ L
  | .object k => ∃ attempt, (k, attempt) ∈ O ∧ Lock.Guarded L K attempt
  | _ => True

section Secured

variable {st : Stmt} {o : Oracle} {S X : Db} {r : st.Result} {ws : List Write} {l : Lock}
  {O : List (String × Uuid)} {L L' : List Lock} {K K' : Uuid → Uuid → Prop}

theorem Lock.Secured.mono (h : l.Secured O L K) (hL : L ⊆ L') (hK : ∀ a j, K a j → K' a j) :
    l.Secured O L' K' := by
  cases l with
  | attempt id => exact Prog.guarded_mono h hL hK
  | key k => exact hL h
  | object k =>
      obtain ⟨attempt, hmem, hguard⟩ := h
      exact ⟨attempt, hmem, Prog.guarded_mono hguard hL hK⟩
  | _ => trivial

/-- A covered statement takes a lock only under its guard. -/
theorem Stmt.Covered.secures (hc : st.Covered O L K) (he : st.eval o S X = .ok (r, ws))
    (hX : ∀ a ∈ X.attempts, K a.id a.jobID) (hlearn : ∀ a j, st.learns r = some (a, j) → K a j)
    (hl : l ∈ st.takes r ws) : l.Secured O L K := by
  have hput : ∀ {id : Uuid} (f : AttemptRec → AttemptRec), (∀ a, (f a).id = a.id) →
      Lock.Guarded L K id → l ∈ (updateRow (reread (S.attempt? id) (X.attempt? id))
        (fun a => .putAttempt (f a))).flatMap Write.locks → l.Secured O L K := by
    intro id f hf hguard hl
    obtain ⟨a, ha, hmem⟩ := locks_updateRow hl
    have hid : a.id = id := Table.key_of_find (reread_some ha).2
    obtain rfl : l = .attempt id := by simpa [Write.locks, hf, hid] using hmem
    exact hguard
  cases st with
  | insertJob id j =>
      simp only [Stmt.eval] at he
      (repeat' split at he) <;> cases he
      · cases hl
      · rcases List.mem_cons.mp (show l ∈ [.job id, .key j.idempotencyKey] from hl) with rfl | hl
        · trivial
        · obtain rfl := List.mem_singleton.mp hl
          exact hc
  | insertArtifact id job attempt a =>
      simp only [Stmt.eval] at he
      (repeat' split at he) <;> cases he
      rcases List.mem_cons.mp (show l ∈ [.artifact id, .object a.objectKey] from hl) with rfl | hl
      · trivial
      · obtain rfl := List.mem_singleton.mp hl
        exact ⟨attempt, hc.1, hc.2.2⟩
  | insertAttempt id job worker token lease timeout =>
      have hK := hlearn id job rfl
      simp only [Stmt.eval] at he
      (repeat' split at he) <;> cases he
      obtain rfl := List.mem_singleton.mp (show l ∈ [.attempt id] from hl)
      exact ⟨job, hK, hc.1⟩
  | lockAttempt id =>
      cases he
      have hmem : l = .attempt id := by
        simp only [Stmt.takes, Stmt.selects, List.flatMap_nil, List.append_nil] at hl
        split at hl
        · exact List.mem_singleton.mp hl
        · cases hl
      rw [hmem]
      exact hc
  | renewAttempt id lease =>
      cases he
      exact hput (fun a => a.renew lease (o.clock 0)) (fun _ => rfl) hc hl
  | startAttempt id =>
      cases he
      exact hput (fun a => a.start (o.clock 0)) (fun _ => rfl) hc hl
  | expireAttempt id =>
      cases he
      exact hput (fun a => a.expire (o.clock 0)) (fun _ => rfl) hc hl
  | finishAttempt id state exitCode reason =>
      simp only [Stmt.eval] at he
      (repeat' split at he) <;> cases he
      exact hput (fun a => a.finish state exitCode reason (o.clock 0)) (fun _ => rfl) hc hl
  | cancelAttempts job =>
      cases he
      obtain ⟨v, hv, hl⟩ := List.mem_flatMap.mp (show l ∈ List.flatMap Write.locks _ from hl)
      obtain ⟨i, hi, rfl⟩ := List.mem_mapIdx.mp hv
      obtain rfl := List.mem_singleton.mp hl
      obtain ⟨hmem, hjob⟩ := Db.mem_cancellable (List.getElem_mem hi)
      have hK := hX _ hmem
      rw [hjob] at hK
      exact ⟨job, hK, hc⟩
  | expiredJobs =>
      cases he
      rcases List.mem_append.mp hl with hl | hl
      · obtain ⟨id, -, rfl⟩ := List.mem_map.mp hl
        trivial
      · cases hl
  | _ =>
      simp only [Stmt.eval] at he
      (repeat' split at he) <;> cases he <;> cases l <;>
        first
        | trivial
        | simp [Stmt.takes, Stmt.selects, updateRow, Write.locks] at hl

/-- What a covered statement waits for is above all that is held, or it is held already, or
its guard is held, or it is the entry of a generated id. -/
theorem Stmt.Covered.waits (hc : st.Covered O L K) (hS : ∀ a ∈ S.attempts, K a.id a.jobID)
    (hl : l ∈ st.waits S) :
    l ∈ st.generates ∨ l ∈ L ∨ l.Tops L ∨ (l.leaf = true ∧ l.Secured O L K) := by
  have hone : ∀ {l'}, l ∈ [l'] → (l' ∈ L ∨ l'.Tops L ∨ (l'.leaf = true ∧ l'.Secured O L K)) →
      l ∈ st.generates ∨ l ∈ L ∨ l.Tops L ∨ (l.leaf = true ∧ l.Secured O L K) := by
    intro l' hl h
    rw [List.mem_singleton.mp hl]
    exact .inr h
  cases st with
  | lockKey | insertRequest | lockRequest | lockJob | insertWorker | lockWorker =>
      exact hone hl (.inr (.inl hc))
  | setResponse | setJob | setJobState | touchWorker | drainWorker => exact hone hl (.inl hc)
  | lockAttempt | renewAttempt | startAttempt | finishAttempt | expireAttempt =>
      exact hone hl (.inr (.inr ⟨rfl, hc⟩))
  | insertJob id j =>
      rcases List.mem_cons.mp hl with rfl | hl
      · exact .inl List.mem_cons_self
      · exact hone hl (.inr (.inr ⟨rfl, hc⟩))
  | insertEvent job attempt kind payload =>
      rcases List.mem_cons.mp hl with rfl | hl
      · exact .inr (.inl hc.1)
      · obtain ⟨a, ha, rfl⟩ := List.mem_map.mp hl
        exact .inr (.inr (.inr ⟨rfl, hc.2 a (Option.mem_toList.mp ha)⟩))
  | cancelAttempts job =>
      obtain ⟨a, ha, rfl⟩ := List.mem_map.mp hl
      obtain ⟨hmem, hcond⟩ := List.mem_filter.mp ha
      have hjob : a.jobID = job := by
        simp only [Bool.and_eq_true, decide_eq_true_eq] at hcond
        exact hcond.1
      have hK := hS a hmem
      rw [hjob] at hK
      exact .inr (.inr (.inr ⟨rfl, job, hK, hc⟩))
  | insertAttempt id job worker =>
      rcases List.mem_cons.mp hl with rfl | hl
      · exact .inl List.mem_cons_self
      rcases List.mem_cons.mp hl with rfl | hl
      · exact .inr (.inl hc.1)
      · exact hone hl (.inl hc.2)
  | insertArtifact id job attempt a =>
      rcases List.mem_cons.mp hl with rfl | hl
      · exact .inl List.mem_cons_self
      rcases List.mem_cons.mp hl with rfl | hl
      · exact .inr (.inr (.inr ⟨rfl, attempt, hc.1, hc.2.2⟩))
      rcases List.mem_cons.mp hl with rfl | hl
      · exact .inr (.inl hc.2.1)
      · exact hone hl (.inr (.inr ⟨rfl, hc.2.2⟩))
  | _ => cases hl

end Secured

/-! ## Every interleaving -/

/-- The order, for one transaction under way over the committed database. -/
structure Tx.Ordered (C : Db) (t : Tx) : Prop where
  orderly : t.prog.Orderly t.op.reports t.locks (C.applyAll t.writes).Assigns
  written : t.writes.flatMap Write.locks ⊆ t.locks
  /-- The transaction leaves the committed attempts to their jobs. -/
  retains : C.Retains (C.applyAll t.writes)
  settled : (C.applyAll t.writes).Retains (C.applyAll t.writes)
  snapshot : ∀ snap b, t.started = some (snap, b) →
    (snap.applyAll t.writes).Retains (C.applyAll t.writes)
  secured : ∀ l ∈ t.locks, l.Secured t.op.reports t.locks (C.applyAll t.writes).Assigns

/-- The order, for all transactions. No two of them hold one lock. -/
structure World.Ordered (w : World) : Prop where
  txs : ∀ i t, w.txs i = some t → t.Ordered w.committed
  exclusive : ∀ i j t u l, w.txs i = some t → w.txs j = some u → l ∈ t.locks → l ∈ u.locks → i = j
  stored : w.committed.Retains w.committed

section Interleaving

variable {C : Db} {t u : Tx}

/-- The attempts a transaction has not locked are as they are committed. -/
theorem Tx.Ordered.rowsOf (h : t.Ordered C) (D : Db) {id : Uuid} (hid : .attempt id ∉ t.locks) :
    (D.applyAll t.writes).rowsOf id = D.rowsOf id :=
  Db.rowsOf_frame (fun hmem => hid (h.written hmem))

/-- A transaction stays ordered when another one, with other locks, commits. -/
theorem Tx.Ordered.commit (ht : t.Ordered C) (hu : u.Ordered C)
    (hlocks : ∀ l ∈ t.locks, l ∉ u.locks) : t.Ordered (C.applyAll u.writes) := by
  -- The rows of an attempt are those the transaction had, or those that are committed now.
  have hrows : ∀ id, ((C.applyAll u.writes).applyAll t.writes).rowsOf id
        = (C.applyAll t.writes).rowsOf id ∧ (C.applyAll u.writes).rowsOf id = C.rowsOf id ∨
      ((C.applyAll u.writes).applyAll t.writes).rowsOf id = (C.applyAll u.writes).rowsOf id ∧
        (C.applyAll t.writes).rowsOf id = C.rowsOf id := by
    intro id
    by_cases hid : .attempt id ∈ t.locks
    · have heq := hu.rowsOf C (hlocks _ hid)
      exact .inl ⟨Db.rowsOf_congr heq t.writes, heq⟩
    · exact .inr ⟨ht.rowsOf _ hid, ht.rowsOf _ hid⟩
  have hassigns : ∀ {X Y : Db} {id job : Uuid}, X.rowsOf id = Y.rowsOf id → X.Assigns id job →
      Y.Assigns id job := fun heq h => by rwa [Db.Assigns, ← heq]
  have hmem : ∀ {X Y : Db} {a : AttemptRec}, X.rowsOf a.id = Y.rowsOf a.id → a ∈ X.attempts →
      a ∈ Y.attempts := fun heq h =>
    (Db.mem_rowsOf.mp (heq ▸ Db.mem_rowsOf.mpr ⟨h, rfl⟩)).1
  have hview : (C.applyAll t.writes).Retains ((C.applyAll u.writes).applyAll t.writes) := by
    intro a ha
    rcases hrows a.id with ⟨hnew, -⟩ | ⟨hnew, hold⟩
    · exact hassigns hnew.symm (ht.settled a ha)
    · exact hassigns hnew.symm (hu.retains a (hmem hold ha))
  refine ⟨ht.orderly.mono (fun _ _ h => hview.assigns h), ht.written, fun a ha => ?_,
    fun a ha => ?_, fun snap b hsnap => (ht.snapshot snap b hsnap).trans hview,
    fun l hl => (ht.secured l hl).mono (List.Subset.refl _) (fun _ _ h => hview.assigns h)⟩
  · rcases hrows a.id with ⟨hnew, hold⟩ | ⟨hnew, -⟩
    · exact hassigns hnew.symm (ht.retains a (hmem hold ha))
    · exact hassigns hnew.symm (hu.settled a ha)
  · rcases hrows a.id with ⟨hnew, -⟩ | ⟨hnew, -⟩
    · exact hassigns hnew.symm (ht.settled a (hmem hnew ha))
    · exact hassigns hnew.symm (hu.settled a (hmem hnew ha))

/-- A statement that finishes keeps the transaction ordered. -/
theorem Tx.Ordered.finish {st : Stmt} {k : st.Result → Prog Result} {snap : Db} {b : Time}
    {o : Oracle} {r : st.Result} {ws : List Write} (ht : t.Ordered C) (hprog : t.prog = .exec st k)
    (hstarted : t.started = some (snap, b))
    (he : st.eval o (snap.applyAll t.writes) (C.applyAll t.writes) = .ok (r, ws)) :
    Tx.Ordered C { t with
      prog := k r
      writes := t.writes ++ ws
      locks := t.locks ++ st.takes r ws
      started := none } := by
  have hS := ht.snapshot snap b hstarted
  obtain ⟨hret, hself⟩ := Stmt.keeps ht.settled he
  have hlearn : ∀ a j, st.learns r = some (a, j) → ((C.applyAll t.writes).applyAll ws).Assigns a j :=
    fun a j => Stmt.learns_assigns hS ht.settled he
  obtain ⟨hcovered, hrest⟩ : st.Covered t.op.reports t.locks _ ∧ _ := hprog ▸ ht.orderly
  have hsub := List.subset_append_left t.locks (st.takes r ws)
  refine ⟨?_, ?_, ?_, ?_, fun _ _ h => (by cases h), ?_⟩
  · rw [Db.applyAll_append]
    refine (hrest r ws ⟨o, _, _, he⟩).mono (fun a j h => ?_)
    rcases h with h | h
    · exact hret.assigns h
    · exact hlearn a j h
  · rw [List.flatMap_append]
    refine List.append_subset.mpr ⟨List.Subset.trans ht.written hsub, fun l hl => ?_⟩
    exact List.mem_append_right _ (List.mem_append_right _ hl)
  · rw [Db.applyAll_append]
    exact ht.retains.trans hret
  · rw [Db.applyAll_append]
    exact hself
  · rw [Db.applyAll_append]
    intro l hl
    rcases List.mem_append.mp hl with hl | hl
    · exact (ht.secured l hl).mono hsub (fun _ _ h => hret.assigns h)
    · have hc := Prog.covered_mono (fun a j h => hret.assigns h) hcovered
      exact (hc.secures he hret hlearn hl).mono hsub (fun _ _ h => h)

end Interleaving

namespace World

variable {w w' : World} {i j : Nat} {t u : Tx}

theorem set_txs (w : World) (i : Nat) (t : Option Tx) (j : Nat) :
    (w.set i t).txs j = if j = i then t else w.txs j := by
  unfold set
  split
  · rename_i h
    rw [h]
    exact Function.update_self ..
  · rename_i h
    exact Function.update_of_ne h ..

theorem Ordered.disjoint (h : w.Ordered) (ht : w.txs i = some t) (hu : w.txs j = some u)
    (hij : i ≠ j) : ∀ l ∈ t.locks, l ∉ u.locks :=
  fun l hl hl' => hij (h.exclusive i j t u l ht hu hl hl')

/-- A transaction takes its place. -/
theorem Ordered.set (h : w.Ordered) (ht : t.Ordered w.committed)
    (hfree : ∀ l ∈ t.locks, w.Free i l) : (w.set i (some t)).Ordered := by
  refine ⟨fun j u hj => ?_, fun j k a b l hj hk ha hb => ?_, h.stored⟩
  · rw [set_txs] at hj
    split at hj
    · cases hj
      exact ht
    · exact h.txs j u hj
  · rw [set_txs] at hj hk
    split at hj <;> split at hk
    · rename_i hji hki
      rw [hji, hki]
    · rename_i hji hki
      cases hj
      exact absurd hb (hfree l ha k b hki hk)
    · rename_i hji hki
      cases hk
      exact absurd ha (hfree l hb j a hji hj)
    · exact h.exclusive j k a b l hj hk ha hb

theorem Ordered.clear (h : w.Ordered) (i : Nat) : (w.set i none).Ordered := by
  have hkept : ∀ {j u}, (w.set i none).txs j = some u → w.txs j = some u := by
    intro j u hj
    rw [set_txs] at hj
    split at hj
    · cases hj
    · exact hj
  exact ⟨fun j u hj => h.txs j u (hkept hj),
    fun j k a b l hj hk => h.exclusive j k a b l (hkept hj) (hkept hk), h.stored⟩

theorem start_ordered {db : Db} (hdb : db.WF) (now : Time) : (start db now).Ordered := by
  refine ⟨fun _ _ h => (by cases h), fun _ _ _ _ _ h => (by cases h), fun a ha => ?_⟩
  refine ⟨List.ne_nil_of_mem (Db.mem_rowsOf.mpr ⟨ha, rfl⟩), fun b hb => ?_⟩
  obtain ⟨hb, hid⟩ := Db.mem_rowsOf.mp hb
  rw [Table.Keyed.eq_of_key hdb.attempts hb ha hid]

variable [Sha256]

/-- One step keeps the order. -/
theorem Ordered.step (h : w.Ordered) (hstep : w.Step w') : w'.Ordered := by
  cases hstep with
  | tick => exact ⟨h.txs, h.exclusive, h.stored⟩
  | @begin i s op hnone =>
      refine h.set ⟨Op.orderly s op _, List.nil_subset _, h.stored, h.stored,
        fun _ _ hs => (by cases hs), List.forall_mem_nil _⟩ (List.forall_mem_nil _)
  | @start i t st k ht hprog hstarted =>
      have hord := h.txs i t ht
      refine h.set ⟨hord.orderly, hord.written, hord.retains, hord.settled, fun snap b hs => ?_,
        hord.secured⟩ (fun l hl j u hij hu => h.disjoint ht hu (Ne.symm hij) l hl)
      cases hs
      exact hord.settled
  | @finish i t st k snap b o r ws n ht hprog hstarted hclock he hfree hids hle =>
      have hset := h.set (i := i) ((h.txs i t ht).finish hprog hstarted he) (fun l hl j u hij hu => by
        rcases List.mem_append.mp hl with hl | hl
        · exact h.disjoint ht hu (Ne.symm hij) l hl
        · exact hfree l hl j u hij hu)
      exact ⟨hset.txs, hset.exclusive, hset.stored⟩
  | @commit i t r ht hprog =>
      have hclear := h.clear i
      have hord := h.txs i t ht
      refine ⟨fun j u hj => ?_, hclear.exclusive, hord.settled⟩
      have hj' : (w.set i none).txs j = some u := hj
      rw [set_txs] at hj'
      split at hj'
      · cases hj'
      · rename_i hji
        exact (h.txs j u hj').commit hord (h.disjoint hj' ht hji)
  | @abort i t ht => exact h.clear i

/-- Every interleaving keeps the order. -/
theorem Ordered.steps (h : w.Ordered) (hrun : w.Steps w') : w'.Ordered := by
  induction hrun with
  | refl => exact h
  | tail _ hstep ih => exact ih.step hstep

end World

end Rungrid
