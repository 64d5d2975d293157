-- SUMMARY: Transactions that report no object key for different attempts never wait in a cycle; crossing reports do.
import Rungrid.Base.Waiting
import Rungrid.Isolation.Ordering
import Rungrid.Lifecycle.Artifacts

/-!
# Deadlocks

The wait-for graph of the transactions under way. A transaction waits only for locks above
its own, because nobody else can have a lock whose guard it holds. The exception are object
keys: a report takes them in the order of its entries, and where the scopes of two attempts
are nested, two reports can take the same keys in opposite orders.
-/

namespace Rungrid

/-! ## Waiting for each other -/

/-- What the statement under way waits for while another transaction holds it. -/
def Tx.wants (t : Tx) : List Lock :=
  match t.prog, t.started with
  | .exec st _, some (snap, _) => st.waits (snap.applyAll t.writes)
  | _, _ => []

/-- The entry of a generated id the statement under way inserts. -/
def Tx.generates (t : Tx) : List Lock :=
  match t.prog with
  | .exec st _ => st.generates
  | _ => []

/-- What a transaction may hold: the rows and the entries it has taken, and the share locks of
its foreign keys, on attempts of the jobs it has locked. -/
def Tx.Holds (C : Db) (t : Tx) (l : Lock) : Prop :=
  l ∈ t.locks ∨ ∃ id, l = .attempt id ∧ Lock.Guarded t.locks (C.applyAll t.writes).Assigns id

/-- The edges of the wait-for graph. -/
def World.Waits (w : World) (i j : Nat) : Prop :=
  i ≠ j ∧ ∃ t u l, w.txs i = some t ∧ w.txs j = some u ∧ l ∈ t.wants ∧ u.Holds w.committed l

/-- No generated id is in use by another transaction. -/
def World.Fresh (w : World) : Prop :=
  ∀ i j t u, i ≠ j → w.txs i = some t → w.txs j = some u → ∀ l ∈ t.generates,
    ¬ u.Holds w.committed l

/-- Generated ids are fresh, and an object key that two transactions report is reported for
one attempt. -/
structure World.Apart (w : World) : Prop where
  fresh : w.Fresh
  objects : ∀ i j t u k a b, i ≠ j → w.txs i = some t → w.txs j = some u → (k, a) ∈ t.op.reports →
    (k, b) ∈ u.op.reports → a = b

section Rivals

variable {C : Db} {t u : Tx} {l : Lock}

/-- Two transactions do not both hold the job of an attempt. -/
theorem Tx.Ordered.guards_apart (ht : t.Ordered C) (hu : u.Ordered C)
    (hlocks : ∀ l ∈ t.locks, l ∉ u.locks) {id : Uuid}
    (hgt : Lock.Guarded t.locks (C.applyAll t.writes).Assigns id) :
    ¬ Lock.Guarded u.locks (C.applyAll u.writes).Assigns id := by
  rintro ⟨job', hassign', hjob'⟩
  obtain ⟨job, hassign, hjob⟩ := hgt
  have hsame : job = job' := by
    by_cases hid : .attempt id ∈ t.locks
    · have hC : C.Assigns id job' := by rwa [Db.Assigns, ← hu.rowsOf C (hlocks _ hid)]
      exact hassign.unique (ht.retains.assigns hC)
    · have hC : C.Assigns id job := by rwa [Db.Assigns, ← ht.rowsOf C hid]
      exact (hu.retains.assigns hC).unique hassign'
  exact hlocks _ hjob (hsame ▸ hjob')

/-- Nobody waits for a lock under the guard of another transaction. -/
theorem Tx.Ordered.secured_apart (ht : t.Ordered C) (hu : u.Ordered C)
    (hlocks : ∀ l ∈ t.locks, l ∉ u.locks)
    (hreports : ∀ k a b, (k, a) ∈ t.op.reports → (k, b) ∈ u.op.reports → a = b)
    (hleaf : l.leaf = true) (hl : l.Secured t.op.reports t.locks (C.applyAll t.writes).Assigns) :
    ¬ l.Secured u.op.reports u.locks (C.applyAll u.writes).Assigns := by
  intro hl'
  cases l with
  | attempt id => exact ht.guards_apart hu hlocks hl hl'
  | key k => exact hlocks _ hl hl'
  | object k =>
      obtain ⟨a, ha, hguard⟩ := hl
      obtain ⟨b, hb, hguard'⟩ := hl'
      obtain rfl := hreports k a b ha hb
      exact ht.guards_apart hu hlocks hguard hguard'
  | _ => cases hleaf

end Rivals

namespace World

variable {w : World} {i j : Nat} {t u : Tx} {l l' : Lock}

/-- The share locks of a statement's foreign keys are among what the transaction may hold. -/
theorem Ordered.references_held (h : w.Ordered) (ht : w.txs i = some t) {st : Stmt}
    {k : st.Result → Prog Result} (hprog : t.prog = .exec st k) (hl : l ∈ st.references) :
    t.Holds w.committed l := by
  have hc : st.Covered t.op.reports t.locks (w.committed.applyAll t.writes).Assigns :=
    (hprog ▸ (h.txs i t ht).orderly : Prog.Orderly _ (.exec st k) _ _).1
  cases st with
  | insertEvent job attempt kind payload =>
      rcases List.mem_cons.mp hl with rfl | hl
      · exact .inl hc.1
      · obtain ⟨a, ha, rfl⟩ := List.mem_map.mp hl
        exact .inr ⟨a, rfl, hc.2 a (Option.mem_toList.mp ha)⟩
  | insertAttempt id job worker =>
      rcases List.mem_cons.mp hl with rfl | hl
      · exact .inl hc.1
      · rw [List.mem_singleton.mp hl]
        exact .inl hc.2
  | insertArtifact id job attempt a =>
      rcases List.mem_cons.mp hl with rfl | hl
      · exact .inl hc.2.1
      · rw [List.mem_singleton.mp hl]
        exact .inr ⟨attempt, rfl, hc.2.2⟩
  | _ => cases hl

theorem Ordered.holds_secured (h : w.Ordered) (ht : w.txs i = some t) (hl : t.Holds w.committed l) :
    l.Secured t.op.reports t.locks (w.committed.applyAll t.writes).Assigns := by
  rcases hl with hl | ⟨id, rfl, hguard⟩
  · exact (h.txs i t ht).secured l hl
  · exact hguard

/-- No two transactions hold one lock, share locks included. -/
theorem Ordered.holds_apart (h : w.Ordered) (hij : i ≠ j) (ht : w.txs i = some t)
    (hu : w.txs j = some u) (hl : l ∈ t.locks) : ¬ u.Holds w.committed l := by
  have hlocks := h.disjoint ht hu hij
  rintro (hl' | ⟨id, rfl, hguard⟩)
  · exact hlocks l hl hl'
  · exact (h.txs i t ht).guards_apart (h.txs j u hu) hlocks ((h.txs i t ht).secured _ hl) hguard

/-- What a transaction waits for is above all it has taken. -/
theorem Ordered.wants_above (h : w.Ordered) (hapart : w.Apart) (hij : i ≠ j) (ht : w.txs i = some t)
    (hu : w.txs j = some u) (hwants : l ∈ t.wants) (hholds : u.Holds w.committed l)
    (hl' : l' ∈ t.locks) : l'.rank < l.rank := by
  have hot := h.txs i t ht
  have hmine : l ∉ t.locks := fun hl => h.holds_apart hij ht hu hl hholds
  obtain ⟨st, k, snap, b, hprog, hstarted⟩ :
      ∃ st k snap b, t.prog = .exec st k ∧ t.started = some (snap, b) := by
    unfold Tx.wants at hwants
    split at hwants
    · rename_i st k snap b hprog hstarted
      exact ⟨st, k, snap, b, hprog, hstarted⟩
    · cases hwants
  have hwaits : l ∈ st.waits (snap.applyAll t.writes) := by
    simpa [Tx.wants, hprog, hstarted] using hwants
  have hcovered : st.Covered t.op.reports t.locks (w.committed.applyAll t.writes).Assigns :=
    (hprog ▸ hot.orderly : Prog.Orderly _ (.exec st k) _ _).1
  rcases hcovered.waits (hot.snapshot snap b hstarted) hwaits with hgen | hheld | htops | ⟨hleaf, hsec⟩
  · have hgen' : l ∈ t.generates := by simpa [Tx.generates, hprog] using hgen
    exact absurd hholds (hapart.fresh i j t u hij ht hu l hgen')
  · exact absurd hheld hmine
  · rcases htops l' hl' with rfl | hlt
    · exact absurd hl' hmine
    · exact hlt
  · exact absurd (h.holds_secured hu hholds) (hot.secured_apart (h.txs j u hu) (h.disjoint ht hu hij)
      (fun k a b => hapart.objects i j t u k a b hij ht hu) hleaf hsec)

/-- Where the order holds nobody waits for themselves. -/
theorem Ordered.acyclic (h : w.Ordered) (hapart : w.Apart) (i : Nat) :
    ¬ Relation.TransGen w.Waits i i := by
  let holds : Nat → Lock → Prop := fun i l => ∃ t, w.txs i = some t ∧ t.Holds w.committed l
  -- A lock is wanted only where another transaction has it.
  let wants : Nat → Lock → Prop := fun i l => ∃ j t u, i ≠ j ∧ w.txs i = some t ∧
    w.txs j = some u ∧ l ∈ t.wants ∧ u.Holds w.committed l
  have hrank : ∀ i l l', wants i l → holds i l' → l'.rank < l.rank := by
    rintro i l l' ⟨j, t, u, hij, ht, hu, hwants, hheld⟩ ⟨t', ht', hl'⟩
    obtain rfl : t = t' := Option.some.inj (ht.symm.trans ht')
    have habove : ∀ l₀ ∈ t.locks, l₀.rank < l.rank :=
      fun l₀ => h.wants_above hapart hij ht hu hwants hheld
    rcases hl' with hl' | ⟨id, rfl, job, -, hjob⟩
    · exact habove l' hl'
    · exact habove (.job job) hjob
  intro hcycle
  refine Waiting.acyclic hrank i (Relation.TransGen.mono (fun a b hab => ?_) i i hcycle)
  obtain ⟨hne, t, u, l, ht, hu, hwants, hheld⟩ := hab
  exact ⟨l, ⟨b, t, u, hne, ht, hu, hwants, hheld⟩, u, hu, hheld⟩

end World

/-! ## Two transactions side by side -/

section Pairs

/-- The transaction after `n` more statements over the committed database, none of them an
event. -/
def Tx.advance (C : Db) (o : Nat → Oracle) : Nat → Tx → Option Tx
  | 0, t => some t
  | n + 1, t =>
      match t.prog with
      | .exec st k =>
          match st.eval (o n) (C.applyAll t.writes) (C.applyAll t.writes) with
          | .ok (r, ws) =>
              if eventIDs ws = [] then
                Tx.advance C o n { t with
                  prog := k r
                  writes := t.writes ++ ws
                  locks := t.locks ++ st.takes r ws
                  started := none }
              else none
          | .error _ => none
      | _ => none

/-- The next statement takes its snapshot. -/
def Tx.wait (C : Db) (now : Time) (t : Tx) : Tx := { t with started := some (C, now) }

/-- There is a next statement. -/
def Tx.pending (t : Tx) : Bool :=
  match t.prog with
  | .exec _ _ => true
  | _ => false

/-- A transaction that begins. -/
def Tx.first [Sha256] (s : Store) (op : Op) (now : Time) : Tx := ⟨s, op, now, op.prog s, [], [], none⟩

theorem Tx.pending_exec {t : Tx} (h : t.pending = true) : ∃ st k, t.prog = .exec st k := by
  unfold pending at h
  split at h
  · rename_i st k hprog
    exact ⟨st, k, hprog⟩
  · cases h

theorem Tx.advance_succ {C : Db} {o : Nat → Oracle} {n : Nat} {t t' : Tx}
    (h : t.advance C o (n + 1) = some t') : ∃ st k r ws, t.prog = .exec st k ∧
      st.eval (o n) (C.applyAll t.writes) (C.applyAll t.writes) = .ok (r, ws) ∧ eventIDs ws = [] ∧
      Tx.advance C o n { t with
        prog := k r
        writes := t.writes ++ ws
        locks := t.locks ++ st.takes r ws
        started := none } = some t' := by
  unfold advance at h
  split at h
  · rename_i st k hprog
    split at h
    · rename_i r ws he
      split at h
      · rename_i hids
        exact ⟨st, k, r, ws, hprog, he, hids, h⟩
      · cases h
    · cases h
  · cases h

theorem Tx.advance_locks {C : Db} {o : Nat → Oracle} {n : Nat} {t t' : Tx}
    (h : t.advance C o n = some t') : t.locks ⊆ t'.locks := by
  induction n generalizing t with
  | zero =>
      cases h
      exact List.Subset.refl _
  | succ n ih =>
      obtain ⟨st, k, r, ws, -, -, -, hrest⟩ := advance_succ h
      exact List.Subset.trans (List.subset_append_left _ _) (ih hrest)

theorem Tx.advance_idle {C : Db} {o : Nat → Oracle} {n : Nat} {t t' : Tx}
    (h : t.advance C o n = some t') (hidle : t.started = none) : t'.started = none := by
  induction n generalizing t with
  | zero =>
      cases h
      exact hidle
  | succ n ih =>
      obtain ⟨st, k, r, ws, -, -, -, hrest⟩ := advance_succ h
      exact ih hrest rfl

theorem Tx.advance_op {C : Db} {o : Nat → Oracle} {n : Nat} {t t' : Tx}
    (h : t.advance C o n = some t') : t'.op = t.op := by
  induction n generalizing t with
  | zero =>
      cases h
      rfl
  | succ n ih =>
      obtain ⟨st, k, r, ws, -, -, -, hrest⟩ := advance_succ h
      have hop := ih hrest
      exact hop

namespace World

variable {w : World} {i : Nat} {t t' : Tx}

theorem set_set (w : World) (i : Nat) (a b : Option Tx) : (w.set i a).set i b = w.set i b := by
  simp [set]

theorem set_self (h : w.txs i = some t) : w.set i (some t) = w := by
  unfold set
  rw [← h, Function.update_eq_self]

theorem free_set {a : Option Tx} {l : Lock} (h : w.Free i l) : (w.set i a).Free i l := by
  intro j u hij hu
  rw [set_txs, if_neg hij] at hu
  exact h j u hij hu

/-- Two transactions under way, each waiting in a statement. -/
def pair (db : Db) (now : Time) (t u : Tx) : World :=
  ((start db now).set 0 (some (t.wait db now))).set 1 (some (u.wait db now))

theorem pair_txs {db : Db} {now : Time} {u x : Tx} (h : (pair db now t u).txs i = some x) :
    i = 0 ∧ x = t.wait db now ∨ i = 1 ∧ x = u.wait db now := by
  rw [pair, set_txs, set_txs] at h
  split at h
  · rename_i hi
    exact .inr ⟨hi, (Option.some.inj h).symm⟩
  · split at h
    · rename_i hi
      exact .inl ⟨hi, (Option.some.inj h).symm⟩
    · cases h

theorem pair_first (db : Db) (now : Time) (t u : Tx) : (pair db now t u).txs 0 = some (t.wait db now) := by
  rw [pair, set_txs, if_neg (by decide), set_txs, if_pos rfl]

theorem pair_second (db : Db) (now : Time) (t u : Tx) : (pair db now t u).txs 1 = some (u.wait db now) := by
  rw [pair, set_txs, if_pos rfl]

theorem pair_fresh {db : Db} {now : Time} {u : Tx}
    (ht : ∀ l ∈ t.generates, l ∉ u.locks ∧ l.leaf = false)
    (hu : ∀ l ∈ u.generates, l ∉ t.locks ∧ l.leaf = false) : (pair db now t u).Fresh := by
  have hholds : ∀ {C : Db} {x : Tx} {l : Lock}, l ∉ x.locks ∧ l.leaf = false → ¬ x.Holds C l := by
    rintro C x l ⟨hl, hleaf⟩ (hmem | ⟨id, rfl, -⟩)
    · exact hl hmem
    · cases hleaf
  intro i j x y hij hx hy l hl
  rcases pair_txs hx with ⟨rfl, rfl⟩ | ⟨rfl, rfl⟩ <;> rcases pair_txs hy with ⟨rfl, rfl⟩ | ⟨rfl, rfl⟩
  · exact absurd rfl hij
  · exact hholds (ht l hl)
  · exact hholds (hu l hl)
  · exact absurd rfl hij

theorem pair_objects {db : Db} {now : Time} {u : Tx}
    (h : ∀ k a b, (k, a) ∈ t.op.reports → (k, b) ∈ u.op.reports → a = b) :
    ∀ i j x y k a b, i ≠ j → (pair db now t u).txs i = some x → (pair db now t u).txs j = some y →
      (k, a) ∈ x.op.reports → (k, b) ∈ y.op.reports → a = b := by
  intro i j x y k a b hij hx hy ha hb
  rcases pair_txs hx with ⟨rfl, rfl⟩ | ⟨rfl, rfl⟩ <;> rcases pair_txs hy with ⟨rfl, rfl⟩ | ⟨rfl, rfl⟩
  · exact absurd rfl hij
  · exact h k a b ha hb
  · exact (h k b a hb ha).symm
  · exact absurd rfl hij

variable [Sha256]

/-- Statements of one transaction, while the others rest. -/
theorem advance_steps {o : Nat → Oracle} {n : Nat} (ht : w.txs i = some t) (hidle : t.started = none)
    (ho : ∀ n, (o n).Within w.now w.now) (h : t.advance w.committed o n = some t')
    (hfree : ∀ l ∈ t'.locks, w.Free i l) : w.Steps (w.set i (some t')) := by
  induction n generalizing w t with
  | zero =>
      cases h
      rw [set_self ht]
      exact .refl
  | succ n ih =>
      obtain ⟨st, k, r, ws, hprog, he, hids, hrest⟩ := Tx.advance_succ h
      have hlocks := Tx.advance_locks hrest
      have hstart : w.Step (w.set i (some (t.wait w.committed w.now))) := .start ht hprog hidle
      have hfinish : (w.set i (some (t.wait w.committed w.now))).Step (w.set i (some { t with
          prog := k r
          writes := t.writes ++ ws
          locks := t.locks ++ st.takes r ws
          started := none })) := by
        have hstep := Step.finish (w := w.set i (some (t.wait w.committed w.now))) (i := i)
          (t := t.wait w.committed w.now) (b := w.now) (n := w.sequence) (by rw [set_txs, if_pos rfl])
          hprog rfl (ho n) he
          (fun l hl => free_set (hfree l (hlocks (List.mem_append_right _ hl))))
          (by rw [hids]; exact List.forall_mem_nil _) (Nat.le_refl _)
        rw [set_set] at hstep
        exact hstep
      have hnext := ih (w := w.set i (some { t with
          prog := k r
          writes := t.writes ++ ws
          locks := t.locks ++ st.takes r ws
          started := none })) (by rw [set_txs, if_pos rfl]) rfl ho hrest
        (fun l hl => free_set (hfree l hl))
      rw [set_set] at hnext
      exact ((Relation.ReflTransGen.single hstart).tail hfinish).trans hnext

/-- Two transactions that have taken different locks can be under way together. -/
theorem pair_steps {db : Db} {now : Time} {s : Store} {a b : Op} {o o' : Nat → Oracle}
    {m n : Nat} {u : Tx} (ho : ∀ n, (o n).Within now now) (ho' : ∀ n, (o' n).Within now now)
    (ht : (Tx.first s a now).advance db o m = some t)
    (hu : (Tx.first s b now).advance db o' n = some u) (hpt : t.pending = true)
    (hpu : u.pending = true) (hlocks : ∀ l ∈ t.locks, l ∉ u.locks) :
    (start db now).Steps (pair db now t u) := by
  obtain ⟨st, k, hprog⟩ := Tx.pending_exec hpt
  obtain ⟨st', k', hprog'⟩ := Tx.pending_exec hpu
  have hidle := Tx.advance_idle ht rfl
  have hidle' := Tx.advance_idle hu rfl
  -- The first one runs alone and waits.
  let w₀ := start db now
  let w₁ := w₀.set 0 (some (Tx.first s a now))
  have h₁ : w₀.Step w₁ := .begin rfl
  have hfree₁ : ∀ l ∈ t.locks, w₁.Free 0 l := fun l _ => free_set (fun j x _ hx => by cases hx)
  have h₂ : w₁.Steps (w₁.set 0 (some t)) :=
    advance_steps (by rw [set_txs, if_pos rfl]) rfl ho ht hfree₁
  rw [set_set] at h₂
  let w₂ := w₀.set 0 (some t)
  have h₃ : w₂.Step (w₂.set 0 (some (t.wait db now))) :=
    .start (by rw [set_txs, if_pos rfl]) hprog hidle
  rw [set_set] at h₃
  -- Then the second one.
  let w₃ := w₀.set 0 (some (t.wait db now))
  have h₄ : w₃.Step (w₃.set 1 (some (Tx.first s b now))) := .begin (by rw [set_txs, if_neg (by decide)]; rfl)
  have hfree₃ : ∀ l ∈ u.locks, (w₃.set 1 (some (Tx.first s b now))).Free 1 l := by
    refine fun l hl => free_set (fun j x hj hx => ?_)
    rw [set_txs] at hx
    split at hx
    · cases hx
      exact fun hmem => hlocks l hmem hl
    · cases hx
  have h₅ := advance_steps (w := w₃.set 1 (some (Tx.first s b now))) (by rw [set_txs, if_pos rfl])
    rfl ho' hu hfree₃
  rw [set_set] at h₅
  have h₆ : (w₃.set 1 (some u)).Step ((w₃.set 1 (some u)).set 1 (some (u.wait db now))) :=
    .start (by rw [set_txs, if_pos rfl]) hprog' hidle'
  rw [set_set] at h₆
  exact ((((Relation.ReflTransGen.single h₁).trans h₂).tail h₃).tail h₄ |>.trans h₅).tail h₆

end World

end Pairs

namespace Sample

/-- The same time in every statement. -/
def steady (n : Nat) : Oracle := ⟨fun _ => 9000, BitVec.ofNat 128 n, 0, fun _ => false⟩

theorem steady_within (n : Nat) : (steady n).Within 9000 9000 := fun _ => ⟨le_refl _, le_refl _⟩

/-- A second worker. -/
def rivalRegister : Request := { register with requestID := "3", workerID := "v" }

def rivalAttemptID : Uuid := Uuid.ID 6006

/-- A request of the second worker's attempt. -/
def rivalRequest (id : String) : Request :=
  { rivalRegister with
    requestID := id, attemptID := rivalAttemptID.text, leaseToken := (Uuid.ID 6007).text }

/-- The jobs of `nested`, each started by a worker of its own. -/
def crossed : List Call :=
  leased ++ [⟨server, .submit [innerJob], oracle 4000⟩,
    ⟨server, .rpc .registerWorker rivalRegister, oracle 5000⟩,
    ⟨server, .rpc .leaseJob { rivalRegister with requestID := "4" }, oracle 6000⟩,
    ⟨server, .rpc .startAttempt (request "5"), oracle 7000⟩,
    ⟨server, .rpc .startAttempt (rivalRequest "6"), oracle 8000⟩]

/-- What `crossed` leaves. -/
def crossedDb : Db where
  jobs := [{ jobRow with state := .running, updatedAt := 7080 },
    { innerJob.newRow innerID (oracle 4000 2) with state := .running, updatedAt := 8080 }]
  workers := [{ worker with lastHeartbeatAt := 7030 },
    { rivalRegister.newWorker (oracle 5000 2) with lastHeartbeatAt := 8030 }]
  attempts := [attempt.start 7070,
    (newAttempt rivalAttemptID innerID 1 "v" (Uuid.ID 6007) 5 30 (oracle 6000 8)).start 8070]
  artifacts := []
  events := leasedDb.events ++ [⟨3, innerID, none, .submitted, .empty, 4040⟩,
    ⟨4, innerID, some rivalAttemptID, .leased, .leased "4" "v" 1, 6110⟩,
    ⟨5, jobID, some attemptID, .method .startAttempt, (request "5").report, 7090⟩,
    ⟨6, innerID, some rivalAttemptID, .method .startAttempt, (rivalRequest "6").report, 8090⟩]
  requests := leasedDb.requests ++ [⟨"rpc:RegisterWorker:v", "3", "", some .registered, 5000⟩,
    ⟨"rpc:LeaseJob:v", "4", "",
      some (.lease ⟨{ (innerJob.newRow innerID (oracle 4000 2)).row with state := .leased },
        rivalAttemptID, 1, Uuid.ID 6007, 5006080, 6083, none⟩), 6000⟩,
    ⟨"rpc:StartAttempt:w", "5", "", some .accepted, 7000⟩,
    ⟨"rpc:StartAttempt:v", "6", "", some .accepted, 8000⟩]

/-- What it leaves before the starts. -/
def crossedLeasedDb : Db :=
  { crossedDb with
    jobs := [jobRow, { innerJob.newRow innerID (oracle 4000 2) with state := .leased, updatedAt := 6090 }]
    workers := [worker, { rivalRegister.newWorker (oracle 5000 2) with lastHeartbeatAt := 6030 }]
    attempts := [attempt, newAttempt rivalAttemptID innerID 1 "v" (Uuid.ID 6007) 5 30 (oracle 6000 8)]
    events := crossedDb.events.take 4
    requests := crossedDb.requests.take 4 }

theorem crossed_leases : @exec digest ((crossed.drop 4).take 2) innerSubmittedDb = crossedLeasedDb := by
  decide +kernel

theorem crossed_starts : @exec digest (crossed.drop 6) crossedLeasedDb = crossedDb := by
  decide +kernel

theorem crossed_exec : @exec digest crossed Db.empty = crossedDb := by
  rw [← crossed_starts, ← crossed_leases, ← inner_submit, ← leased_exec]
  simp only [← @exec_append digest]
  rfl

/-- An output in the scopes of both attempts. -/
def common (name : String) : Artifact :=
  { own with objectKey := Store.keyScope innerJob innerID rivalAttemptID.text ++ name }

/-- The reports name the same objects, in opposite orders. -/
def there : Op := .rpc .reportProgress { request "7" with artifacts := some [common "f", common "g"] }

def back : Op := .rpc .reportProgress { rivalRequest "8" with artifacts := some [common "g", common "f"] }

/-- The first report again, under another request id. -/
def again : Op := .rpc .reportProgress { request "9" with artifacts := some [common "g", common "f"] }

/-- The ids for the second transaction. -/
def others (n : Nat) : Oracle := steady (n + 100)

/-- The transactions have taken different locks and generate ids of their own, and the second
waits for the first. -/
def held (t u : Tx) : Bool :=
  t.pending && u.pending && t.locks.all (fun l => l ∉ u.locks) &&
    t.generates.all (fun l => l ∉ u.locks && !l.leaf) &&
    u.generates.all (fun l => l ∉ t.locks && !l.leaf) &&
    (u.wait crossedDb 9000).wants.any (fun l => l ∈ t.locks)

theorem held_elim {t u : Tx} (h : held t u = true) :
    t.pending = true ∧ u.pending = true ∧ (∀ l ∈ t.locks, l ∉ u.locks) ∧
      (∀ l ∈ t.generates, l ∉ u.locks ∧ l.leaf = false) ∧
      (∀ l ∈ u.generates, l ∉ t.locks ∧ l.leaf = false) ∧
      ∃ l ∈ (u.wait crossedDb 9000).wants, l ∈ t.locks := by
  simpa [held, and_assoc] using h

/-- What the checks below say of the two transactions. -/
theorem advance_pair {p : Tx → Tx → Bool} {a b : Option Tx}
    (h : (a.bind (fun t => b.map (fun u => p t u))) = some true) :
    ∃ t u, a = some t ∧ b = some u ∧ p t u = true := by
  obtain ⟨t, ht, h⟩ := Option.bind_eq_some_iff.mp h
  obtain ⟨u, hu, h⟩ := Option.map_eq_some_iff.mp h
  exact ⟨t, u, ht, hu, h⟩

theorem crossed_reachable : @Reachable digest crossedDb := ⟨crossed, crossed_exec.symm⟩

/-- What the wait-for graph needs of a transaction: that it has a next statement, what it has
taken, the id it inserts and what it waits for. -/
def outline (t : Tx) : Bool × List Lock × List Lock × List Lock :=
  (t.pending, t.locks, t.generates, (t.wait crossedDb 9000).wants)

/-- What a report has taken when it inserts its second artifact. -/
def taken (worker request : String) (job attempt artifact : Uuid) (key : String) : List Lock :=
  [.request ("rpc:ReportProgress:" ++ worker) request, .request ("rpc:ReportProgress:" ++ worker) request,
    .worker worker, .worker worker, .job job, .attempt attempt, .artifact artifact, .object key]

def thereLocks : List Lock := taken "w" "7" jobID attemptID (Uuid.ID 3) (common "f").objectKey

def backLocks : List Lock := taken "v" "8" innerID rivalAttemptID (Uuid.ID 103) (common "g").objectKey

theorem crossing_outlines :
    ((@Tx.first digest server there 9000).advance crossedDb steady 12).map outline
        = some (true, thereLocks, [.artifact (Uuid.ID 0)],
          [.artifact (Uuid.ID 0), .object (common "g").objectKey, .job jobID, .attempt attemptID]) ∧
      ((@Tx.first digest server back 9000).advance crossedDb others 12).map outline
        = some (true, backLocks, [.artifact (Uuid.ID 100)],
          [.artifact (Uuid.ID 100), .object (common "f").objectKey, .job innerID,
            .attempt rivalAttemptID]) :=
  ⟨by decide +kernel, by decide +kernel⟩

theorem crossing_apart : ∀ l ∈ thereLocks, l ∉ backLocks := by decide +kernel

theorem held_again : (((@Tx.first digest server there 9000).advance crossedDb steady 3).bind
    (fun t => ((@Tx.first digest server again 9000).advance crossedDb others 2).map
      (fun u => held t u))) = some true := by
  decide +kernel

end Sample

/-- No set of transactions waits in a cycle, whatever the interleaving of their statements,
unless two of them report one object key for different attempts. -/
theorem waits_acyclic [Sha256] {db : Db} (hdb : Reachable db) {now : Time} {w : World}
    (hrun : (World.start db now).Steps w) (hapart : w.Apart) (i : Nat) :
    ¬ Relation.TransGen w.Waits i i :=
  ((World.start_ordered hdb.logged.1.wf now).steps hrun).acyclic hapart i

theorem waits_acyclic_again : ∃ w, @World.Steps Sample.digest (World.start Sample.crossedDb 9000) w ∧
    w.Apart ∧ w.Waits 1 0 ∧ ∀ i, ¬ Relation.TransGen w.Waits i i := by
  obtain ⟨t, u, ht, hu, hheld⟩ := Sample.advance_pair Sample.held_again
  obtain ⟨hpt, hpu, hlocks, hgt, hgu, l, hwants, hl⟩ := Sample.held_elim hheld
  have hrun := @World.pair_steps _ Sample.digest _ _ _ _ _ _ _ _ _ _ Sample.steady_within
    (fun n => Sample.steady_within (n + 100)) ht hu hpt hpu hlocks
  have hapart : (World.pair Sample.crossedDb 9000 t u).Apart := by
    refine ⟨World.pair_fresh hgt hgu, World.pair_objects (fun k a b ha hb => ?_)⟩
    rw [Tx.advance_op ht] at ha
    rw [Tx.advance_op hu] at hb
    have hfirst : Uuid.parse Sample.attemptID.text = some a := Request.mem_reports ha
    have hsecond : Uuid.parse Sample.attemptID.text = some b := Request.mem_reports hb
    exact Option.some.inj (hfirst.symm.trans hsecond)
  exact ⟨_, hrun, hapart, ⟨by decide, _, _, l, World.pair_second _ _ t u, World.pair_first _ _ t u,
    hwants, .inl hl⟩, @waits_acyclic Sample.digest _ Sample.crossed_reachable _ _ hrun hapart⟩

/-- Two reports whose scopes are nested wait for each other's object keys. -/
theorem crossing_reports_deadlock : @Reachable Sample.digest Sample.crossedDb ∧
    ∃ w, @World.Steps Sample.digest (World.start Sample.crossedDb 9000) w ∧ w.Fresh ∧
      w.Waits 0 1 ∧ w.Waits 1 0 ∧ Relation.TransGen w.Waits 0 0 := by
  obtain ⟨t, ht, hto⟩ := Option.map_eq_some_iff.mp Sample.crossing_outlines.1
  obtain ⟨u, hu, huo⟩ := Option.map_eq_some_iff.mp Sample.crossing_outlines.2
  simp only [Sample.outline, Prod.mk.injEq] at hto huo
  obtain ⟨hpt, hlt, hgent, hwt⟩ := hto
  obtain ⟨hpu, hlu, hgenu, hwu⟩ := huo
  have hlocks : ∀ l ∈ t.locks, l ∉ u.locks := by
    rw [hlt, hlu]
    exact Sample.crossing_apart
  have hgt : ∀ l ∈ t.generates, l ∉ u.locks ∧ l.leaf = false := by
    rw [hgent, hlu]
    decide +kernel
  have hgu : ∀ l ∈ u.generates, l ∉ t.locks ∧ l.leaf = false := by
    rw [hgenu, hlt]
    decide +kernel
  have hforth : (World.pair Sample.crossedDb 9000 t u).Waits 0 1 := by
    refine ⟨by decide, _, _, .object (Sample.common "g").objectKey, World.pair_first _ _ t u,
      World.pair_second _ _ t u, ?_, .inl ?_⟩
    · rw [hwt]
      exact List.mem_cons_of_mem _ List.mem_cons_self
    · change _ ∈ u.locks
      rw [hlu]
      simp [Sample.backLocks, Sample.taken]
  have hback : (World.pair Sample.crossedDb 9000 t u).Waits 1 0 := by
    refine ⟨by decide, _, _, .object (Sample.common "f").objectKey, World.pair_second _ _ t u,
      World.pair_first _ _ t u, ?_, .inl ?_⟩
    · rw [hwu]
      exact List.mem_cons_of_mem _ List.mem_cons_self
    · change _ ∈ t.locks
      rw [hlt]
      simp [Sample.thereLocks, Sample.taken]
  exact ⟨Sample.crossed_reachable, _, @World.pair_steps _ Sample.digest _ _ _ _ _ _ _ _ _ _
    Sample.steady_within (fun n => Sample.steady_within (n + 100)) ht hu hpt hpu hlocks,
    World.pair_fresh hgt hgu, hforth, hback, .tail (.single hforth) hback⟩

end Rungrid
