-- SUMMARY: The events of a job are numbered in the order of their commits, so its log read by number determines it.
import Rungrid.Isolation.Refinement

/-!
# Event numbers

An event draws its number when it is inserted and is seen when its transaction
commits, so events become visible out of the order of their numbers. Not so the
events of one job: whoever inserts one holds the row of the job until the commit.
Read in the order of the numbers, the log of a job is therefore the log of the
atomic run.
-/

namespace Rungrid

/-! ## The events of writes -/

/-- The events among the writes. -/
def Write.events (ws : List Write) : List EventRec :=
  ws.filterMap fun w => match w with
    | .insertEvent e => some e
    | _ => none

section Events

variable {ws vs : List Write}

theorem Write.events_append (ws vs : List Write) : events (ws ++ vs) = events ws ++ events vs :=
  List.filterMap_append

theorem eventIDs_eq (ws : List Write) : eventIDs ws = (Write.events ws).map EventRec.id := by
  rw [eventIDs, Write.events, List.map_filterMap]
  refine List.filterMap_congr (fun w _ => ?_)
  cases w <;> rfl

theorem Db.events_applyAll (X : Db) (ws : List Write) :
    (X.applyAll ws).events = X.events ++ Write.events ws := by
  induction ws generalizing X with
  | nil => exact (List.append_nil _).symm
  | cons w ws ih =>
      rw [applyAll_cons, ih]
      cases w <;> simp [apply, Write.events]

/-- A statement inserts at most one event, under the lock of its job. -/
theorem Stmt.Covered.events {O : List (String × Uuid)} {L : List Lock} {K : Uuid → Uuid → Prop}
    {st : Stmt} {o : Oracle} {S X : Db} {r : st.Result} (hc : st.Covered O L K)
    (he : st.eval o S X = .ok (r, ws)) :
    Write.events ws = [] ∨ ∃ e, Write.events ws = [e] ∧ .job e.jobID ∈ L := by
  cases st with
  | insertEvent job attempt kind payload =>
      simp only [Stmt.eval] at he
      (repeat' split at he) <;> cases he
      exact .inr ⟨_, rfl, hc.1⟩
  | _ =>
      refine .inl (List.filterMap_eq_nil_iff.mpr fun w hw => ?_)
      simp only [Stmt.eval] at he
      (repeat' split at he) <;> cases he <;>
        first
        | exact absurd hw List.not_mem_nil
        | (obtain rfl := List.mem_singleton.mp hw; rfl)
        | (obtain ⟨x, -, rfl⟩ := Option.map_eq_some_iff.mp (Option.mem_toList.mp hw); rfl)
        | (obtain ⟨i, hi, rfl⟩ := List.mem_mapIdx.mp hw; rfl)

end Events

/-! ## Every interleaving -/

/-- Of two events of one job the later one has the greater number. -/
def EventRec.Precedes (e e' : EventRec) : Prop := e.jobID = e'.jobID → e.id < e'.id

/-- The events a transaction has inserted over the committed ones. -/
structure Tx.Numbered (C : Db) (n : Nat) (t : Tx) : Prop where
  held : ∀ e ∈ Write.events t.writes, .job e.jobID ∈ t.locks
  drawn : ∀ e ∈ Write.events t.writes, e.id ≤ n
  inOrder : (C.events ++ Write.events t.writes).Pairwise EventRec.Precedes

structure World.Numbered (w : World) : Prop where
  ordered : w.Ordered
  drawn : ∀ e ∈ w.committed.events, e.id ≤ w.sequence
  inOrder : w.committed.events.Pairwise EventRec.Precedes
  txs : ∀ i t, w.txs i = some t → t.Numbered w.committed w.sequence

section Numbered

variable {C : Db} {n : Nat} {t u : Tx}

theorem Tx.Numbered.mono (h : t.Numbered C n) {n' : Nat} (hle : n ≤ n') : t.Numbered C n' :=
  { h with drawn := fun e he => (h.drawn e he).trans hle }

/-- A transaction keeps its place when another one, with other locks, commits. -/
theorem Tx.Numbered.commit (ht : t.Numbered C n) (hu : u.Numbered C n)
    (hlocks : ∀ l ∈ t.locks, l ∉ u.locks) : t.Numbered (C.applyAll u.writes) n := by
  refine { ht with inOrder := ?_ }
  rw [Db.events_applyAll]
  have hC := List.pairwise_append.mp ht.inOrder
  refine List.pairwise_append.mpr ⟨hu.inOrder, hC.2.1, fun e he e' he' => ?_⟩
  rcases List.mem_append.mp he with he | he
  · exact hC.2.2 e he e' he'
  · intro hjob
    have hmine := ht.held e' he'
    rw [← hjob] at hmine
    exact absurd (hu.held e he) (hlocks _ hmine)

/-- A statement draws a number above all that were drawn before. -/
theorem Tx.Numbered.finish {m : Nat} {st : Stmt} {k : st.Result → Prog Result} {snap : Db} {o : Oracle}
    {r : st.Result} {ws : List Write} (h : t.Numbered C n) (ht : t.Ordered C)
    (hC : ∀ e ∈ C.events, e.id ≤ n) (hprog : t.prog = .exec st k)
    (he : st.eval o (snap.applyAll t.writes) (C.applyAll t.writes) = .ok (r, ws))
    (hids : ∀ id ∈ eventIDs ws, n < id ∧ id ≤ m) (hle : n ≤ m) :
    Tx.Numbered C m { t with
      prog := k r
      writes := t.writes ++ ws
      locks := t.locks ++ st.takes r ws
      started := none } := by
  have hsub := List.subset_append_left t.locks (st.takes r ws)
  have hcovered : st.Covered t.op.reports t.locks _ := (hprog ▸ ht.orderly).1
  have hnew : ∀ e ∈ Write.events ws, n < e.id ∧ e.id ≤ m ∧ .job e.jobID ∈ t.locks := by
    intro e hmem
    obtain ⟨hlt, hm⟩ := hids e.id (eventIDs_eq ws ▸ List.mem_map_of_mem hmem)
    refine ⟨hlt, hm, ?_⟩
    rcases hcovered.events he with hnil | ⟨e', hone, hlock⟩
    · rw [hnil] at hmem
      cases hmem
    · rw [hone] at hmem
      rwa [List.mem_singleton.mp hmem]
  refine ⟨fun e hmem => ?_, fun e hmem => ?_, ?_⟩
  · rw [Write.events_append] at hmem
    rcases List.mem_append.mp hmem with hmem | hmem
    · exact hsub (h.held e hmem)
    · exact hsub (hnew e hmem).2.2
  · rw [Write.events_append] at hmem
    rcases List.mem_append.mp hmem with hmem | hmem
    · exact (h.drawn e hmem).trans hle
    · exact (hnew e hmem).2.1
  · rw [Write.events_append, ← List.append_assoc]
    refine List.pairwise_append.mpr ⟨h.inOrder, ?_, fun e hmem e' hmem' _ => ?_⟩
    · rcases hcovered.events he with hnil | ⟨e', hone, -⟩
      · rw [hnil]
        exact List.Pairwise.nil
      · rw [hone]
        exact List.pairwise_singleton _ _
    · have hold : e.id ≤ n := (List.mem_append.mp hmem).elim (hC e) (h.drawn e)
      exact Nat.lt_of_le_of_lt hold (hnew e' hmem').1

end Numbered

namespace World

variable {w w' : World}

theorem start_numbered {db : Db} (hdb : db.WF) (now : Time) : (start db now).Numbered := by
  refine ⟨start_ordered hdb now, fun e he => ?_, ?_, fun _ _ h => (by cases h)⟩
  · exact Db.le_lastEventID he
  · exact (List.pairwise_map.mp hdb.eventIDs).imp (S := EventRec.Precedes) (fun hlt _ => hlt)

/-- The numbers of the events of a job ascend. -/
theorem Numbered.eventsOf (h : w.Numbered) (job : Uuid) :
    (w.committed.eventsOf job).Pairwise (fun e e' => e.id < e'.id) := by
  refine (List.Pairwise.filter _ h.inOrder).imp_of_mem (fun he he' hlt => hlt ?_)
  have hjob := (List.mem_filter.mp he).2
  have hjob' := (List.mem_filter.mp he').2
  rw [decide_eq_true_eq] at hjob hjob'
  exact hjob.trans hjob'.symm

/-- Read by number, the events of a job are in the order of their commits. -/
theorem Numbered.log (h : w.Numbered) (job : Uuid) : w.committed.log job = w.committed.eventsOf job :=
  List.Pairwise.insertionSort_eq ((h.eventsOf job).imp (fun hlt => Nat.le_of_lt hlt))

variable [Sha256]

/-- One step keeps the order of the numbers. -/
theorem Numbered.step (h : w.Numbered) (hstep : w.Step w') : w'.Numbered := by
  have hordered := h.ordered.step hstep
  cases hstep with
  | tick => exact ⟨hordered, h.drawn, h.inOrder, h.txs⟩
  | @begin i s op hnone =>
      refine ⟨hordered, h.drawn, h.inOrder, fun j u hj => ?_⟩
      rw [set_txs] at hj
      split at hj
      · cases hj
        exact ⟨List.forall_mem_nil _, List.forall_mem_nil _, by
          rw [show Write.events [] = [] from rfl, List.append_nil]
          exact h.inOrder⟩
      · exact h.txs j u hj
  | @start i t st k ht hprog hstarted =>
      refine ⟨hordered, h.drawn, h.inOrder, fun j u hj => ?_⟩
      rw [set_txs] at hj
      split at hj
      · cases hj
        exact { h.txs i t ht with }
      · exact h.txs j u hj
  | @finish i t st k snap b o r ws n ht hprog hstarted hclock he hfree hids hle =>
      refine ⟨hordered, fun e hmem => (h.drawn e hmem).trans hle, h.inOrder, fun j u hj => ?_⟩
      have hj' : (w.set i (some { t with
        prog := k r
        writes := t.writes ++ ws
        locks := t.locks ++ st.takes r ws
        started := none })).txs j = some u := hj
      rw [set_txs] at hj'
      split at hj'
      · cases hj'
        exact (h.txs i t ht).finish (h.ordered.txs i t ht) h.drawn hprog he hids hle
      · exact (h.txs j u hj').mono hle
  | @commit i t r ht hprog =>
      have hnum := h.txs i t ht
      refine ⟨hordered, fun e hmem => ?_, ?_, fun j u hj => ?_⟩
      · rw [Db.events_applyAll] at hmem
        exact (List.mem_append.mp hmem).elim (h.drawn e) (hnum.drawn e)
      · rw [Db.events_applyAll]
        exact hnum.inOrder
      · have hj' : (w.set i none).txs j = some u := hj
        rw [set_txs] at hj'
        split at hj'
        · cases hj'
        · rename_i hji
          exact (h.txs j u hj').commit hnum (h.ordered.disjoint hj' ht hji)
  | @abort i t ht =>
      refine ⟨hordered, h.drawn, h.inOrder, fun j u hj => h.txs j u ?_⟩
      rw [set_txs] at hj
      split at hj
      · cases hj
      · exact hj

/-- Every interleaving keeps the order of the numbers. -/
theorem Numbered.steps (h : w.Numbered) (hrun : w.Steps w') : w'.Numbered := by
  induction hrun with
  | refl => exact h
  | tail _ hstep ih => exact ih.step hstep

end World

/-! ## Numbers that cross -/

section Crossing

/-- The transaction after a statement that inserts an event, and the number of the event. -/
def Tx.draw (C : Db) (o : Oracle) (t : Tx) : Option (Tx × Nat) :=
  match t.prog with
  | .exec st k =>
      match st.eval o (C.applyAll t.writes) (C.applyAll t.writes) with
      | .ok (r, ws) =>
          match eventIDs ws with
          | [id] => some ({ t with
              prog := k r
              writes := t.writes ++ ws
              locks := t.locks ++ st.takes r ws
              started := none }, id)
          | _ => none
      | .error _ => none
  | _ => none

theorem Tx.draw_eq_some {C : Db} {o : Oracle} {t t' : Tx} {id : Nat} (h : t.draw C o = some (t', id)) :
    ∃ st k r ws, t.prog = .exec st k ∧
      st.eval o (C.applyAll t.writes) (C.applyAll t.writes) = .ok (r, ws) ∧ eventIDs ws = [id] ∧
      t' = { t with
        prog := k r
        writes := t.writes ++ ws
        locks := t.locks ++ st.takes r ws
        started := none } := by
  unfold draw at h
  split at h
  · rename_i st k hprog
    split at h
    · rename_i r ws he
      split at h
      · rename_i id' hids
        cases h
        exact ⟨st, k, r, ws, hprog, he, hids, rfl⟩
      · cases h
    · cases h
  · cases h

namespace World

variable [Sha256] {w : World} {i : Nat} {t t' : Tx}

/-- A statement that draws a number, while the other transactions rest. -/
theorem draw_steps {o : Oracle} {id : Nat} (ht : w.txs i = some t) (hidle : t.started = none)
    (ho : o.Within w.now w.now) (h : t.draw w.committed o = some (t', id)) (hid : w.sequence < id)
    (hfree : ∀ l ∈ t'.locks, w.Free i l) : w.Steps { w.set i (some t') with sequence := id } := by
  obtain ⟨st, k, r, ws, hprog, he, hids, rfl⟩ := Tx.draw_eq_some h
  have hstart : w.Step (w.set i (some (t.wait w.committed w.now))) := .start ht hprog hidle
  have hfinish := Step.finish (w := w.set i (some (t.wait w.committed w.now))) (i := i)
    (t := t.wait w.committed w.now) (b := w.now) (n := id) (by rw [set_txs, if_pos rfl]) hprog rfl ho he
    (fun l hl => free_set (hfree l (List.mem_append_right _ hl)))
    (by rw [hids]; exact List.forall_mem_singleton.mpr ⟨hid, Nat.le_refl _⟩) (Nat.le_of_lt hid)
  rw [set_set] at hfinish
  exact (Relation.ReflTransGen.single hstart).tail hfinish

/-- The first transaction draws a number, and the second one draws the next and commits
before it. -/
theorem crossed_steps {db : Db} {now : Time} {s : Store} {a b : Op} {o o' o'' : Nat → Oracle} {p p' : Oracle}
    {m n k id id' : Nat} {t t₁ t₂ u u₁ : Tx} {r r' : Result} (ho : ∀ n, (o n).Within now now)
    (ho' : ∀ n, (o' n).Within now now) (ho'' : ∀ n, (o'' n).Within now now) (hp : p.Within now now)
    (hp' : p'.Within now now) (ht : (Tx.first s a now).advance db o m = some t)
    (hdraw : t.draw db p = some (t₁, id)) (hu : (Tx.first s b now).advance db o' n = some u)
    (hdraw' : u.draw db p' = some (u₁, id')) (hid : db.lastEventID < id) (hid' : id < id')
    (hr : u₁.answer = some r) (hlocks : ∀ l ∈ u₁.locks, l ∉ t₁.locks)
    (ht' : t₁.advance (db.applyAll u₁.writes) o'' k = some t₂) (hr' : t₂.answer = some r') :
    ∃ w, (start db now).Steps w ∧ w.committed = (db.applyAll u₁.writes).applyAll t₂.writes ∧
      w.log.map (fun c => (c.op, c.result)) = [(b, r), (a, r')] := by
  -- The first one runs until it has its number.
  let w₀ := start db now
  have h₁ : w₀.Step (w₀.set 0 (some (Tx.first s a now))) := .begin rfl
  have halone : ∀ {x : Option Tx} {l : Lock}, (w₀.set 0 x).Free 0 l :=
    free_set (fun j x _ hx => by cases hx)
  have h₂ := advance_steps (w := w₀.set 0 (some (Tx.first s a now))) (by rw [set_txs, if_pos rfl])
    rfl ho ht (fun l _ => halone)
  rw [set_set] at h₂
  have h₃ := draw_steps (w := w₀.set 0 (some t)) (by rw [set_txs, if_pos rfl]) (Tx.advance_idle ht rfl) hp
    hdraw hid (fun l _ => halone)
  rw [set_set] at h₃
  -- The second one draws a greater number and commits.
  let w₁ : World := { w₀.set 0 (some t₁) with sequence := id }
  have hfirst : w₁.txs 0 = some t₁ := set_txs w₀ 0 (some t₁) 0
  have hapart : ∀ {x : Option Tx} {l : Lock}, l ∉ t₁.locks → (w₁.set 1 x).Free 1 l := by
    refine fun hl => free_set (fun j x hj hx => ?_)
    have hx : (w₀.set 0 (some t₁)).txs j = some x := hx
    rw [set_txs] at hx
    split at hx
    · cases hx
      exact hl
    · cases hx
  have hdrawn : u.locks ⊆ u₁.locks := by
    obtain ⟨st, k, r, ws, -, -, -, rfl⟩ := Tx.draw_eq_some hdraw'
    exact List.subset_append_left _ _
  have h₄ : w₁.Step (w₁.set 1 (some (Tx.first s b now))) :=
    .begin (set_txs w₀ 0 (some t₁) 1)
  have h₅ := advance_steps (w := w₁.set 1 (some (Tx.first s b now))) (by rw [set_txs, if_pos rfl])
    rfl ho' hu (fun l hl => hapart (hlocks l (hdrawn hl)))
  rw [set_set] at h₅
  have h₆ := draw_steps (w := w₁.set 1 (some u)) (by rw [set_txs, if_pos rfl]) (Tx.advance_idle hu rfl) hp'
    hdraw' hid' (fun l hl => hapart (hlocks l hl))
  rw [set_set] at h₆
  have h₇ := Step.commit (w := ({ w₁ with sequence := id' } : World).set 1 (some u₁))
    (by rw [set_txs, if_pos rfl]) (Tx.answer_done hr)
  rw [set_set] at h₇
  -- The first one goes on over what the second one committed.
  let w₂ : World := { w₁.set 1 none with
    committed := db.applyAll u₁.writes
    sequence := id'
    log := [⟨u₁.server, u₁.op, u₁.began, now, r, db.applyAll u₁.writes⟩] }
  have hagain : w₂.txs 0 = some t₁ := (set_txs w₁ 1 none 0).trans hfirst
  have hother : ∀ {l : Lock}, w₂.Free 0 l := by
    intro l j x hj hx
    have hx : (w₁.set 1 none).txs j = some x := hx
    rw [set_txs] at hx
    split at hx
    · cases hx
    · have hx : (w₀.set 0 (some t₁)).txs j = some x := hx
      rw [set_txs, if_neg hj] at hx
      cases hx
  obtain ⟨st, next, res, ws, -, -, -, ht₁⟩ := Tx.draw_eq_some hdraw
  obtain ⟨st', next', res', ws', -, -, -, hu₁⟩ := Tx.draw_eq_some hdraw'
  have h₈ := advance_steps hagain (by rw [ht₁]) ho'' ht' (fun l _ => hother)
  have h₉ := Step.commit (w := w₂.set 0 (some t₂)) (by rw [set_txs, if_pos rfl]) (Tx.answer_done hr')
  refine ⟨_, ((((((Relation.ReflTransGen.single h₁).trans h₂).trans h₃).tail h₄).trans h₅).trans h₆).tail h₇
    |>.trans h₈ |>.tail h₉, rfl, ?_⟩
  have hb : u₁.op = b := by rw [hu₁]; exact Tx.advance_op hu
  have ha : t₂.op = a := (Tx.advance_op ht').trans (by rw [ht₁]; exact Tx.advance_op ht)
  simp [w₂, World.set, ha, hb]

end World

end Crossing

/-! ## The log of a job -/

/-- Replaying a log does not look at the numbers. -/
theorem View.foldl_replay_body (es : List EventRec) (v : View) :
    (es.map EventRec.body).foldl View.replay v = es.foldl View.replay v := by
  rw [List.foldl_map]
  rfl

theorem Db.Same.eventsOf {A X : Db} (h : A.Same X) (job : Uuid) :
    (A.eventsOf job).map EventRec.body = (X.eventsOf job).map EventRec.body := by
  have hevents : A.events.map EventRec.body = X.events.map EventRec.body := by
    simp only [Db.Same, Db.unnumbered, Db.mk.injEq] at h
    exact h.2.2.2.2.1
  have hfilter : ∀ D : Db, (D.eventsOf job).map EventRec.body
      = (D.events.map EventRec.body).filter (fun e => e.jobID = job) := by
    intro D
    rw [List.filter_map]
    rfl
  rw [hfilter, hfilter, hevents]

/-- In every interleaving the events of a job have ascending numbers in the order of their
commits, and folding them, read by number, yields the job and its attempts as committed. -/
theorem interleavings_logged [Sha256] (db : Db) (hdb : Reachable db) (now : Time) (w : World)
    (hrun : (World.start db now).Steps w) (j : JobRec) (hj : j ∈ w.committed.jobs) :
    (w.committed.eventsOf j.id).Pairwise (fun e e' => e.id < e'.id) ∧
    (w.committed.log j.id).foldl View.replay (View.initial j.definition) =
      ⟨j.state, j.maxAttempts, (w.committed.attemptsOf j.id).map
        (fun a => ⟨a.id, a.attemptNumber, a.workerID, a.state⟩)⟩ := by
  have hnumbered := (World.start_numbered hdb.logged.1.wf now).steps hrun
  obtain ⟨A, hserial, hA⟩ := ((World.start_refines hdb.logged.1.wf now).steps hrun).serial
  have hlogged := (hserial.reachable hdb).logged.2
  have htables := hA.tables
  have hjA : j ∈ A.tables.jobs := htables ▸ hj
  have hview : (A.tables.attemptsOf j.id) = w.committed.tables.attemptsOf j.id := by rw [htables]
  refine ⟨hnumbered.eventsOf j.id, ?_⟩
  calc (w.committed.log j.id).foldl View.replay (View.initial j.definition)
      = ((w.committed.eventsOf j.id).map EventRec.body).foldl View.replay (View.initial j.definition) := by
        rw [hnumbered.log, View.foldl_replay_body]
    _ = ((A.eventsOf j.id).map EventRec.body).foldl View.replay (View.initial j.definition) := by
        rw [hA.eventsOf]
    _ = A.view j := by
        rw [View.foldl_replay_body]
        exact (hlogged j hjA).replay
    _ = _ := by
        exact congrArg (fun as => View.mk j.state j.maxAttempts (as.map AttemptRec.view)) hview

namespace Sample

/-- The start of the attempt, and the submission of another job. -/
def starts : Op := .rpc .startAttempt (request "3")

def submits : Op := .submit [apartJob]

/-- The number after the next one. -/
def skips : Oracle := { others 50 with gap := 1 }

/-- The job with its attempt started. -/
def runningRow : JobRec := { jobRow with state := .running, updatedAt := 9000 }

/-- The submission draws a number after the start has drawn one, and is complete before it. -/
theorem starts_crossed :
    ((@Tx.first digest server starts 9000).advance leasedDb steady 9).any (fun t =>
      (t.draw leasedDb (steady 50)).any (fun d =>
        ((@Tx.first digest server submits 9000).advance leasedDb others 4).any (fun u =>
          (u.draw leasedDb skips).any (fun d' =>
            d.2 == 3 && d'.2 == 4 && d'.1.answer.isSome && d'.1.locks.all (fun l => l ∉ d.1.locks) &&
              (d.1.advance (leasedDb.applyAll d'.1.writes) steady 1).any (fun t' =>
                t'.answer.isSome &&
                  decide (runningRow ∈ ((leasedDb.applyAll d'.1.writes).applyAll t'.writes).jobs) &&
                  decide (((leasedDb.applyAll d'.1.writes).applyAll t'.writes).events.map EventRec.id =
                    [1, 2, 4, 3])))))) = true := by
  decide +kernel

/-- So their events are committed in another order than their numbers have. -/
theorem starts_interleave : ∃ w, @World.Steps digest (World.start leasedDb 9000) w ∧
    w.log.map Commit.op = [submits, starts] ∧ w.committed.events.map EventRec.id = [1, 2, 4, 3] ∧
    runningRow ∈ w.committed.jobs := by
  have h := starts_crossed
  simp only [Option.any_eq_true, Bool.and_eq_true, beq_iff_eq, List.all_eq_true, decide_eq_true_eq,
    Option.isSome_iff_exists] at h
  obtain ⟨t, ht, ⟨t₁, id⟩, hdraw, u, hu, ⟨u₁, id'⟩, hdraw', ⟨⟨⟨hid, hid'⟩, r, hr⟩, hlocks⟩, t₂, ht',
    ⟨⟨r', hr'⟩, hjob⟩, hevents⟩ := h
  dsimp only at hid hid'
  subst hid hid'
  have hskips : skips.Within 9000 9000 := fun _ => ⟨le_refl _, le_refl _⟩
  obtain ⟨w, hrun, hdb, hlog⟩ := @World.crossed_steps digest _ _ _ _ _ _ _ _ _ _ _ _ _ _ _ _ _ _ _ _ _ _
    steady_within (fun n => steady_within (n + 100)) steady_within (steady_within 50)
    hskips ht hdraw hu hdraw' (by decide) (by decide) hr hlocks ht' hr'
  have hops := congrArg (List.map Prod.fst) hlog
  rw [List.map_map] at hops
  exact ⟨w, hrun, hops, hdb ▸ hevents, hdb ▸ hjob⟩

end Sample

/-- Another job is submitted between the event of a start and its commit. -/
theorem interleavings_logged_overtaken : ∃ w : World,
    w.log.map Commit.op = [Sample.submits, Sample.starts] ∧
    w.committed.events.map EventRec.id = [1, 2, 4, 3] ∧
    (w.committed.eventsOf Sample.jobID).Pairwise (fun e e' => e.id < e'.id) ∧
    (w.committed.log Sample.jobID).foldl View.replay (View.initial Sample.job) =
      ⟨.running, 3, (w.committed.attemptsOf Sample.jobID).map
        (fun a => ⟨a.id, a.attemptNumber, a.workerID, a.state⟩)⟩ := by
  obtain ⟨w, hrun, hops, hevents, hjob⟩ := Sample.starts_interleave
  exact ⟨w, hops, hevents, @interleavings_logged Sample.digest Sample.leasedDb Sample.leased_reachable 9000
    w hrun Sample.runningRow hjob⟩

end Rungrid
