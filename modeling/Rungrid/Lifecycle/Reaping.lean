-- SUMMARY: A tick of the reaper expires exactly the first hundred lapsed leases, and repeated ticks expire them all.
import Rungrid.Lifecycle.Leases

/-!
# Reaping

A tick of the reaper selects up to a hundred jobs with a lapsed lease in the order of their
ids, queries each of them again, and expires the attempt it finds. A job has one active
attempt, so the second query finds the attempt that made the job a candidate, and executed
alone the tick expires the first hundred lapsed attempts and nothing else.
-/

namespace Rungrid

open Prog

/-! ## Lapsed leases -/

instance : Std.Total Uuid.le where
  total a b := Nat.le_total a.bits.toNat b.bits.toNat

instance : IsTrans Uuid Uuid.le where
  trans _ _ _ := Nat.le_trans

instance : Std.Antisymm Uuid.le where
  antisymm a b hab hba := by
    have hbits := BitVec.eq_of_toNat_eq (Nat.le_antisymm hab hba)
    cases a
    cases b
    cases hbits
    rfl

/-- The active attempts whose lease has run out at `t`, in the order of their jobs. -/
def Db.lapsed (db : Db) (t : Time) : List AttemptRec :=
  (db.attempts.filter (·.expiredAt t)).insertionSort (fun a b => a.jobID.le b.jobID)

theorem AttemptRec.active_of_expiredAt {a : AttemptRec} {t : Time} (h : a.expiredAt t = true) :
    a.state.active = true :=
  (Bool.and_eq_true_iff.mp h).1

section Lapsed

variable {db : Db} {t : Time} {a : AttemptRec}

theorem Db.mem_lapsed : a ∈ db.lapsed t ↔ a ∈ db.attempts ∧ a.expiredAt t = true := by
  rw [Db.lapsed, List.mem_insertionSort, List.mem_filter]

theorem Db.WF.lapsed_job (hwf : db.WF) {b : AttemptRec} (ha : a ∈ db.lapsed t)
    (hb : b ∈ db.lapsed t) (hjob : a.jobID = b.jobID) : a = b := by
  obtain ⟨ha, haexp⟩ := Db.mem_lapsed.mp ha
  obtain ⟨hb, hbexp⟩ := Db.mem_lapsed.mp hb
  exact hwf.oneActive a ha b hb hjob (AttemptRec.active_of_expiredAt haexp)
    (AttemptRec.active_of_expiredAt hbexp)

theorem Db.WF.lapsed_nodup (hwf : db.WF) (t : Time) :
    ((db.lapsed t).map AttemptRec.jobID).Nodup := by
  have hattempts : db.attempts.Nodup := List.Nodup.of_map _ hwf.attempts
  have hlapsed : (db.lapsed t).Nodup :=
    (List.perm_insertionSort _ _).nodup_iff.mpr (hattempts.filter _)
  exact hlapsed.map_on (fun a ha b hb hjob => hwf.lapsed_job ha hb hjob)

/-- The candidates of the reaper are the jobs of the lapsed attempts. -/
theorem Db.reapOrder_jobs (hwf : db.WF) (hlog : db.Logged) {clock : Nat → Time}
    (hclock : ∀ i, ∀ a ∈ db.attempts, a.expiredAt (clock i) = a.expiredAt t) :
    (db.reapOrder clock).map JobRec.id = (db.lapsed t).map AttemptRec.jobID := by
  have hreap : ∀ j ∈ db.jobs, ∀ i, db.reapable j (clock i) = true ↔
      ∃ a ∈ db.lapsed t, a.jobID = j.id := by
    intro j hj i
    simp only [Db.reapable, Bool.and_eq_true, List.any_eq_true, decide_eq_true_eq]
    constructor
    · rintro ⟨-, a, ha, hjob, hexp⟩
      rw [hclock i a ha] at hexp
      exact ⟨a, Db.mem_lapsed.mpr ⟨ha, hexp⟩, hjob⟩
    · rintro ⟨a, ha, hjob⟩
      obtain ⟨ha, hexp⟩ := Db.mem_lapsed.mp ha
      have hcoh := Db.jobCoherent (hlog.coherent hwf hj)
      refine ⟨hcoh.active_iff.mp ⟨a, Db.mem_attemptsOf.mpr ⟨ha, hjob⟩, ?_⟩, a, ha, hjob, ?_⟩
      · exact AttemptRec.active_of_expiredAt hexp
      · rw [hclock i a ha]
        exact hexp
  have hsub : ((db.jobs.zipIdx.filter (fun p => db.reapable p.1 (clock p.2))).map Prod.fst).Sublist
      db.jobs := by
    have h := (List.filter_sublist (p := fun p : JobRec × Nat => db.reapable p.1 (clock p.2))
      (l := db.jobs.zipIdx)).map Prod.fst
    rwa [List.zipIdx_map_fst] at h
  have hnodup : ((db.reapOrder clock).map JobRec.id).Nodup := by
    have hperm := (List.perm_insertionSort (fun a b : JobRec => a.id.le b.id)
      ((db.jobs.zipIdx.filter (fun p => db.reapable p.1 (clock p.2))).map Prod.fst)).map JobRec.id
    exact hperm.nodup_iff.mpr (hwf.jobs.sublist (hsub.map JobRec.id))
  refine List.Perm.eq_of_pairwise' (r := Uuid.le) ?_ ?_
    ((List.perm_ext_iff_of_nodup hnodup (hwf.lapsed_nodup t)).mpr fun id => ?_)
  · have htotal : Std.Total (fun a b : JobRec => a.id.le b.id) := ⟨fun a b => Std.Total.total _ _⟩
    have htrans : IsTrans JobRec (fun a b : JobRec => a.id.le b.id) :=
      ⟨fun a b c => IsTrans.trans (r := Uuid.le) _ _ _⟩
    exact List.pairwise_map.mpr (List.pairwise_insertionSort _ _)
  · have htotal : Std.Total (fun a b : AttemptRec => a.jobID.le b.jobID) :=
      ⟨fun a b => Std.Total.total _ _⟩
    have htrans : IsTrans AttemptRec (fun a b : AttemptRec => a.jobID.le b.jobID) :=
      ⟨fun a b c => IsTrans.trans (r := Uuid.le) _ _ _⟩
    exact List.pairwise_map.mpr (List.pairwise_insertionSort _ _)
  · rw [List.mem_map, List.mem_map]
    constructor
    · rintro ⟨j, hj, rfl⟩
      rw [Db.reapOrder, List.mem_insertionSort, List.mem_map] at hj
      obtain ⟨⟨j, i⟩, hji, rfl⟩ := hj
      obtain ⟨hmem, hcond⟩ := List.mem_filter.mp hji
      have hjob : j ∈ db.jobs := List.mem_of_getElem? (List.mem_zipIdx_iff_getElem?.mp hmem)
      exact (hreap j hjob i).mp hcond
    · rintro ⟨a, ha, rfl⟩
      obtain ⟨j, hj⟩ := Option.isSome_iff_exists.mp (hwf.attemptJob a (Db.mem_lapsed.mp ha).1)
      have hjob := Db.mem_of_job? hj
      obtain ⟨i, hi⟩ := List.mem_iff_getElem?.mp hjob
      refine ⟨j, ?_, Db.job?_id hj⟩
      rw [Db.reapOrder, List.mem_insertionSort, List.mem_map]
      refine ⟨(j, i), List.mem_filter.mpr ⟨List.mem_zipIdx_iff_getElem?.mpr hi, ?_⟩, rfl⟩
      exact (hreap j hjob i).mpr ⟨a, ha, (Db.job?_id hj).symm⟩

end Lapsed

/-! ## What a tick does -/

/-- The attempts `as` are expired, each with its job and with one event, and nothing else
changes. -/
structure Db.Reaps (db db' : Db) (as : List AttemptRec) : Prop where
  attempts : ∃ f : AttemptRec → AttemptRec, db'.attempts = db.attempts.map f ∧
    ∀ a ∈ db.attempts, (a ∈ as → ∃ t, f a = a.expire t) ∧ (a ∉ as → f a = a)
  jobs : ∃ f : JobRec → JobRec, db'.jobs = db.jobs.map f ∧ ∀ j ∈ db.jobs,
    (∀ a ∈ as, a.jobID = j.id →
      ∃ t, f j = j.setState (retryState a.attemptNumber j.maxAttempts) t) ∧
    ((∀ a ∈ as, a.jobID ≠ j.id) → f j = j)
  events : ∃ new, db'.events = db.events ++ new ∧
    new.map (fun e => (e.jobID, e.attemptID, e.eventType, e.payload)) =
      as.map (fun a => (a.jobID, some a.id, .leaseExpired, .expired AttemptRec.expiryReason))
  workers : db'.workers = db.workers
  artifacts : db'.artifacts = db.artifacts
  requests : db'.requests = db.requests

section Tick

variable {db mid db' : Db} {a : AttemptRec} {as : List AttemptRec} {j : JobRec}

theorem Db.Reaps.refl (db : Db) : db.Reaps db [] where
  attempts := ⟨id, by simp, fun a _ => ⟨by simp, fun _ => rfl⟩⟩
  jobs := ⟨id, by simp, fun j _ => ⟨by simp, fun _ => rfl⟩⟩
  events := ⟨[], by simp, rfl⟩
  workers := rfl
  artifacts := rfl
  requests := rfl

theorem Db.Reaps.trans (h : db.Reaps mid [a]) (h' : mid.Reaps db' as) (ha : a ∈ db.attempts)
    (hnew : a.jobID ∉ as.map AttemptRec.jobID) : db.Reaps db' (a :: as) := by
  obtain ⟨f, hf, hrows⟩ := h.attempts
  obtain ⟨f', hf', hrows'⟩ := h'.attempts
  obtain ⟨g, hg, hjobs⟩ := h.jobs
  obtain ⟨g', hg', hjobs'⟩ := h'.jobs
  obtain ⟨new, hnewev, hevents⟩ := h.events
  obtain ⟨new', hnewev', hevents'⟩ := h'.events
  have hother : ∀ b ∈ as, b.jobID ≠ a.jobID := fun b hb heq =>
    hnew (List.mem_map.mpr ⟨b, hb, heq⟩)
  refine ⟨⟨f' ∘ f, by rw [hf', hf, List.map_map], fun b hb => ?_⟩,
    ⟨g' ∘ g, by rw [hg', hg, List.map_map], fun j hj => ?_⟩,
    ⟨new ++ new', by rw [hnewev', hnewev, List.append_assoc], by simp [hevents, hevents']⟩,
    h'.workers.trans h.workers, h'.artifacts.trans h.artifacts, h'.requests.trans h.requests⟩
  · have hmem : f b ∈ mid.attempts := hf ▸ List.mem_map_of_mem hb
    by_cases hba : b = a
    · subst hba
      obtain ⟨t, ht⟩ := (hrows b hb).1 (by simp)
      refine ⟨fun _ => ⟨t, ?_⟩, fun hnot => absurd List.mem_cons_self hnot⟩
      have hout : f b ∉ as := fun hin => hother _ hin (by rw [ht]; rfl)
      rw [Function.comp_apply, (hrows' _ hmem).2 hout, ht]
    · have hsame : f b = b := (hrows b hb).2 (by simpa using hba)
      rw [hsame] at hmem
      rw [Function.comp_apply, hsame]
      refine ⟨fun hin => (hrows' b hmem).1 ?_, fun hnot => (hrows' b hmem).2 ?_⟩
      · exact (List.mem_cons.mp hin).resolve_left hba
      · exact fun hin => hnot (List.mem_cons_of_mem a hin)
  · have hmem : g j ∈ mid.jobs := hg ▸ List.mem_map_of_mem hj
    rw [Function.comp_apply]
    by_cases hja : a.jobID = j.id
    · obtain ⟨t, ht⟩ := (hjobs j hj).1 a (by simp) hja
      have hkeep : g' (g j) = g j := by
        refine (hjobs' _ hmem).2 fun b hb heq => hother b hb ?_
        rw [heq, ht, hja]
        rfl
      refine ⟨fun b hb hbj => ?_, fun hnone => absurd hja (hnone a List.mem_cons_self)⟩
      rcases List.mem_cons.mp hb with rfl | hb
      · exact ⟨t, hkeep.trans ht⟩
      · exact absurd (hbj.trans hja.symm) (hother b hb)
    · have hsame : g j = j := (hjobs j hj).2 (by simpa using hja)
      rw [hsame] at hmem ⊢
      refine ⟨fun b hb hbj => ?_, fun hnone => ?_⟩
      · rcases List.mem_cons.mp hb with rfl | hb
        · exact absurd hbj hja
        · exact (hjobs' j hmem).1 b hb hbj
      · exact (hjobs' j hmem).2 (fun b hb => hnone b (List.mem_cons_of_mem a hb))

/-- The three writes of the loop for one attempt. -/
theorem Db.WF.reaps_one (hwf : db.WF) (ha : db.attempt? a.id = some a)
    (hj : db.job? a.jobID = some j) (t u : Time) (o : Oracle) :
    db.Reaps (db.applyAll [.putAttempt (a.expire t),
      .putJob (j.setState (retryState a.attemptNumber j.maxAttempts) u),
      .insertEvent (db.newEvent o a.jobID (some a.id) .leaseExpired
        (.expired AttemptRec.expiryReason))]) [a] where
  attempts := by
    refine ⟨_, rfl, fun b hb => ⟨fun hin => ⟨t, ?_⟩, fun hnot => ?_⟩⟩
    · obtain rfl := List.mem_singleton.mp hin
      exact if_pos rfl
    · refine if_neg fun hid => hnot (List.mem_singleton.mpr ?_)
      exact hwf.attempt_unique hb (Db.mem_of_attempt? ha) hid
  jobs := by
    refine ⟨_, rfl, fun k hk => ⟨fun b hb hbk => ⟨u, ?_⟩, fun hnone => ?_⟩⟩
    · obtain rfl := List.mem_singleton.mp hb
      obtain rfl : k = j := by
        have hk' := hwf.job_of_mem hk
        rw [← hbk, hj] at hk'
        exact (Option.some.inj hk').symm
      exact if_pos rfl
    · refine if_neg fun hid => hnone a List.mem_cons_self ?_
      exact (Db.job?_id hj).symm.trans hid.symm
  events := ⟨_, rfl, rfl⟩
  workers := rfl
  artifacts := rfl
  requests := rfl

theorem Db.Reaps.eq_of_nil (h : db.Reaps db' []) : db' = db := by
  obtain ⟨f, hf, hrows⟩ := h.attempts
  obtain ⟨g, hg, hjobs⟩ := h.jobs
  obtain ⟨new, hnew, hevents⟩ := h.events
  have hattempts : db'.attempts = db.attempts := by
    rw [hf, List.map_congr_left (fun a ha => (hrows a ha).2 (by simp)), List.map_id']
  have hjobs' : db'.jobs = db.jobs := by
    rw [hg, List.map_congr_left (fun j hj => (hjobs j hj).2 (by simp)), List.map_id']
  have hevents' : db'.events = db.events := by
    rw [hnew, List.map_eq_nil_iff.mp hevents, List.append_nil]
  have hw := h.workers
  have hx := h.artifacts
  have hr := h.requests
  cases db
  cases db'
  simp_all

/-- The loop expires the attempts whose jobs it is given. -/
theorem reapLoop_exact (s : Store) {o : Nat → Oracle} {n : Nat} (hwf : db.WF)
    (hnodup : (as.map AttemptRec.jobID).Nodup)
    (hall : ∀ a ∈ as, a ∈ db.attempts ∧ ∀ n, a.expiredAt ((o n).clock 0) = true) :
    ∃ db', (Store.reapLoop (as.map AttemptRec.jobID) n).run o db = .ok (n + as.length, db') ∧
      db.Reaps db' as := by
  induction as generalizing db o n with
  | nil => exact ⟨db, rfl, .refl db⟩
  | cons a as ih =>
      obtain ⟨hmem, hexp⟩ := hall a List.mem_cons_self
      have hact := AttemptRec.active_of_expiredAt (hexp 0)
      have ha := hwf.attempt_of_mem hmem
      obtain ⟨j, hj⟩ := Option.isSome_iff_exists.mp (hwf.attemptJob a hmem)
      rw [List.map_cons, List.nodup_cons] at hnodup
      -- The query of the loop finds the job's only active attempt.
      have hfind : db.attempts.find? (fun b => b.jobID = a.jobID && b.expiredAt ((o 0).clock 0))
          = some a := by
        cases hb : db.attempts.find? (fun b => b.jobID = a.jobID && b.expiredAt ((o 0).clock 0)) with
        | none =>
            have hno := List.find?_eq_none.mp hb a hmem
            simp [hexp 0] at hno
        | some b =>
            have hcond := List.find?_some hb
            simp only [Bool.and_eq_true, decide_eq_true_eq] at hcond
            rw [hwf.oneActive b (List.mem_of_find?_eq_some hb) a hmem hcond.1
              (AttemptRec.active_of_expiredAt hcond.2) hact]
      have hquery : (Stmt.expiredAttempt a.jobID).eval (o 0) db db
          = .ok (some (a.id, a.attemptNumber, j.maxAttempts), []) := by
        simp [Stmt.eval, hfind, hj]
      have hexpire : (Stmt.expireAttempt a.id).eval (o 1) db db
          = .ok ((), [.putAttempt (a.expire ((o 1).clock 0))]) := by
        simp [Stmt.eval, ha]
      let state : JobState := retryState a.attemptNumber j.maxAttempts
      let dead : Db := db.apply (.putAttempt (a.expire ((o 1).clock 0)))
      have hj' : dead.job? a.jobID = some j := hj
      have hset : (Stmt.setJobState a.jobID state).eval (o 2) dead dead
          = .ok ((), [.putJob (j.setState state ((o 2).clock 0))]) := by
        simp [Stmt.eval, hj']
      let freed : Db := dead.apply (.putJob (j.setState state ((o 2).clock 0)))
      have hjob : freed.job? a.jobID = some (j.setState state ((o 2).clock 0)) :=
        Db.job?_putJob hj' rfl
      have hattempt : freed.attempt? a.id = some (a.expire ((o 1).clock 0)) :=
        Db.attempt?_putAttempt ha rfl
      have hnul : EventPayload.hasNul (.expired AttemptRec.expiryReason) = false := by decide
      have hevent : (Stmt.insertEvent a.jobID (some a.id) .leaseExpired
          (.expired AttemptRec.expiryReason)).eval (o 3) freed freed
          = .ok ((), [.insertEvent (db.newEvent (o 3) a.jobID (some a.id) .leaseExpired
            (.expired AttemptRec.expiryReason))]) := by
        simp only [Stmt.eval, hnul, hjob, hattempt, Option.any_some, Option.isNone_some,
          Bool.false_eq_true, ↓reduceIte]
        rfl
      have hone := hwf.reaps_one ha hj ((o 1).clock 0) ((o 2).clock 0) (o 3)
      let next : Db := freed.apply (.insertEvent (db.newEvent (o 3) a.jobID (some a.id) .leaseExpired
        (.expired AttemptRec.expiryReason)))
      have hwf' : next.WF := by
        have he : Effect (fun _ => True) s db (.expired j.id a.id) (db.applyAll
            [.putAttempt (a.expire ((o 1).clock 0)), .putJob (j.setState state ((o 2).clock 0)),
              .insertEvent (db.newEvent (o 3) j.id (some a.id) .leaseExpired
                (.expired AttemptRec.expiryReason))]) :=
          .expired ha hj trivial (hexp 0) trivial trivial trivial
        rw [Db.job?_id hj] at he
        exact he.wf hwf
      have hrest : ∀ b ∈ as, b ∈ next.attempts ∧ ∀ n, b.expiredAt ((o (n + 4)).clock 0) = true := by
        intro b hb
        obtain ⟨hbmem, hbexp⟩ := hall b (List.mem_cons_of_mem a hb)
        refine ⟨Table.mem_put.mpr (.inr ⟨hbmem, fun hid => ?_⟩), fun n => hbexp (n + 4)⟩
        have hba : b = a := hwf.attempt_unique hbmem hmem hid
        exact hnodup.1 (List.mem_map.mpr ⟨b, hb, congrArg _ hba⟩)
      obtain ⟨db', hrun, hreaps⟩ := ih (o := fun n => o (n + 4)) (n := n + 1) hwf' hnodup.2 hrest
      refine ⟨db', ?_, Db.Reaps.trans hone hreaps hmem hnodup.1⟩
      rw [List.map_cons, Store.reapLoop, run_sql_bind hquery, Db.applyAll_nil]
      dsimp only
      rw [run_sql_bind hexpire, Db.applyAll_cons, Db.applyAll_nil, run_sql_bind hset,
        Db.applyAll_cons, Db.applyAll_nil, Store.event, run_sql_bind hevent, Db.applyAll_cons,
        Db.applyAll_nil, List.length_cons, Nat.add_comm as.length, ← Nat.add_assoc]
      exact hrun

end Tick

/-! ## Calls -/

/-- No other transaction holds a lock. -/
def Call.Alone (c : Call) : Prop := ∀ n id, (c.oracle n).locked id = false

section Calls

variable [Sha256] {db : Db} {c : Call} {t : Time}

/-- A tick of the reaper whose candidate query sees the leases as they are at `t`. -/
theorem perform_reap (hreach : Reachable db) (hop : c.op = .reap) (halone : c.Alone)
    (hforward : c.Forward)
    (hclock : ∀ i, ∀ a ∈ db.attempts, a.expiredAt ((c.oracle 0).clock i) = a.expiredAt t) :
    (perform c db).1 = .ok (.reaped (min (db.lapsed t).length reapLimit)) ∧
      db.Reaps (perform c db).2 ((db.lapsed t).take reapLimit) := by
  obtain ⟨hsound, hlog⟩ := hreach.logged
  obtain ⟨server, op, o⟩ := c
  obtain rfl : op = .reap := hop
  have hkeep : ∀ j ∈ db.reapOrder (o 0).clock,
      (!(o 0).locked j.id && (db.job? j.id).any (·.state.active)) = true := by
    intro j hj
    rw [Db.reapOrder, List.mem_insertionSort, List.mem_map] at hj
    obtain ⟨⟨j, i⟩, hji, rfl⟩ := hj
    obtain ⟨hmem, hcond⟩ := List.mem_filter.mp hji
    have hjob : j ∈ db.jobs := List.mem_of_getElem? (List.mem_zipIdx_iff_getElem?.mp hmem)
    simp only [Db.reapable, Bool.and_eq_true] at hcond
    simp [show (o 0).locked j.id = false from halone 0 j.id, hsound.wf.job_of_mem hjob, hcond.1]
  have hquery : Stmt.expiredJobs.eval (o 0) db db
      = .ok (((db.lapsed t).take reapLimit).map AttemptRec.jobID, []) := by
    rw [Stmt.eval, List.filter_eq_self.mpr hkeep, List.map_take,
      Db.reapOrder_jobs hsound.wf hlog hclock, List.map_take]
  have hall : ∀ a ∈ (db.lapsed t).take reapLimit,
      a ∈ db.attempts ∧ ∀ n, a.expiredAt ((o (n + 1)).clock 0) = true := by
    intro a ha
    obtain ⟨hmem, hexp⟩ := Db.mem_lapsed.mp (List.mem_of_mem_take ha)
    refine ⟨hmem, fun n => ?_⟩
    have hfirst : a.expiredAt ((o 0).clock 0) = true := (hclock 0 a hmem).trans hexp
    simp only [AttemptRec.expiredAt, Bool.and_eq_true, decide_eq_true_eq] at hfirst ⊢
    exact ⟨hfirst.1, hfirst.2.trans (hforward 0 0 (n + 1) 0 (.inl (Nat.succ_pos n)))⟩
  have hnodup : (((db.lapsed t).take reapLimit).map AttemptRec.jobID).Nodup :=
    (hsound.wf.lapsed_nodup t).sublist ((List.take_sublist _ _).map _)
  obtain ⟨db', hrun, hreaps⟩ := reapLoop_exact server (o := fun n => o (n + 1)) (n := 0) hsound.wf
    hnodup hall
  have hreap : Store.reap.run o db = .ok (min (db.lapsed t).length reapLimit, db') := by
    rw [Store.reap, run_sql_bind hquery, Db.applyAll_nil, hrun, Nat.zero_add, List.length_take,
      Nat.min_comm]
  have hperform : perform ⟨server, .reap, o⟩ db
      = (.ok (.reaped (min (db.lapsed t).length reapLimit)), db') := by
    refine perform_ok.mpr ?_
    have hmap := Prog.run_map Store.reap Result.reaped o db
    rw [hreap] at hmap
    exact hmap
  rw [hperform]
  exact ⟨rfl, hreaps⟩

omit [Sha256] in
/-- What is left for the next tick. -/
theorem Db.Reaps.lapsed_length {db' : Db} (hwf : db.WF)
    (h : db.Reaps db' ((db.lapsed t).take reapLimit)) :
    (db'.lapsed t).length = (db.lapsed t).length - reapLimit := by
  obtain ⟨f, hf, hrows⟩ := h.attempts
  have hnodup : (db.lapsed t).Nodup := List.Nodup.of_map _ (hwf.lapsed_nodup t)
  -- An attempt is lapsed afterwards if it was and is not among those expired.
  have hfilter : db'.attempts.filter (·.expiredAt t)
      = (db.attempts.filter (·.expiredAt t)).filter (· ∉ (db.lapsed t).take reapLimit) := by
    rw [hf, List.filter_map, List.filter_filter]
    have hsame : ∀ a ∈ db.attempts, (decide (a ∉ (db.lapsed t).take reapLimit) && a.expiredAt t)
        = (f a).expiredAt t := by
      intro a ha
      by_cases hin : a ∈ (db.lapsed t).take reapLimit
      · obtain ⟨u, hu⟩ := (hrows a ha).1 hin
        simp [hin, hu, AttemptRec.expiredAt, AttemptRec.expire, AttemptState.active]
      · simp [hin, (hrows a ha).2 hin]
    rw [List.filter_congr hsame]
    refine (List.map_congr_left fun a ha => ?_).trans (List.map_id' _)
    obtain ⟨ha, hexp⟩ := List.mem_filter.mp ha
    refine (hrows a ha).2 fun hin => ?_
    have hno := hsame a ha
    rw [show (f a).expiredAt t = true from hexp] at hno
    simp [hin] at hno
  have hdrop : (db.lapsed t).filter (· ∉ (db.lapsed t).take reapLimit) = (db.lapsed t).drop reapLimit := by
    have hparts := List.take_append_drop reapLimit (db.lapsed t)
    have hdisjoint := List.disjoint_take_drop hnodup (Nat.le_refl reapLimit)
    generalize (db.lapsed t).take reapLimit = front at hparts hdisjoint ⊢
    generalize (db.lapsed t).drop reapLimit = rest at hparts hdisjoint ⊢
    rw [← hparts, List.filter_append, List.filter_eq_nil_iff.mpr (by simp), List.nil_append]
    refine List.filter_eq_self.mpr fun a ha => ?_
    simpa using fun hin => hdisjoint hin ha
  calc (db'.lapsed t).length
      = (db'.attempts.filter (·.expiredAt t)).length := (List.perm_insertionSort _ _).length_eq
    _ = ((db.lapsed t).filter (· ∉ (db.lapsed t).take reapLimit)).length := by
        rw [hfilter]
        exact ((List.perm_insertionSort _ _).symm.filter _).length_eq
    _ = (db.lapsed t).length - reapLimit := by rw [hdrop, List.length_drop]

/-- A tick that is executed alone while the clock stands at `t`. -/
structure Call.Ticks (c : Call) (t : Time) : Prop where
  op : c.op = .reap
  alone : c.Alone
  stopped : ∀ n i, (c.oracle n).clock i = t

theorem Call.Ticks.perform (h : c.Ticks t) (hreach : Reachable db) :
    (perform c db).1 = .ok (.reaped (min (db.lapsed t).length reapLimit)) ∧
      db.Reaps (Rungrid.perform c db).2 ((db.lapsed t).take reapLimit) := by
  refine perform_reap hreach h.op h.alone (fun n i m k _ => ?_) (fun i a _ => by rw [h.stopped])
  rw [h.stopped, h.stopped]

theorem exec_lapsed (hreach : Reachable db) {cs : List Call} (h : ∀ c ∈ cs, c.Ticks t) :
    ((exec cs db).lapsed t).length = (db.lapsed t).length - reapLimit * cs.length := by
  induction cs generalizing db with
  | nil => rfl
  | cons c cs ih =>
      have htick := (h c List.mem_cons_self).perform hreach
      rw [exec_cons, ih (hreach.perform c) (fun d hd => h d (List.mem_cons_of_mem c hd)),
        htick.2.lapsed_length hreach.logged.1.wf, List.length_cons, Nat.mul_succ]
      omega

end Calls

/-- In every reachable state a tick of the reaper, executed alone, expires the attempts whose
lease has run out when it queries the candidates, up to the hundred with the least job ids:
their jobs are queued again or fail, one event is appended for each, their number is
returned, and nothing else changes. While the clock stands still, as many ticks as it takes
hundreds leave no lapsed attempt, and a further tick changes nothing. -/
theorem reap_exact [Sha256] (db : Db) (hreach : Reachable db) (t : Time) :
    (∀ c : Call, c.op = .reap → c.Alone → c.Forward →
      (∀ i, ∀ a ∈ db.attempts, a.expiredAt ((c.oracle 0).clock i) = a.expiredAt t) →
      (perform c db).1 = .ok (.reaped (min (db.lapsed t).length 100)) ∧
        db.Reaps (perform c db).2 ((db.lapsed t).take 100)) ∧
    (∀ cs : List Call, (∀ c ∈ cs, c.Ticks t) → (db.lapsed t).length ≤ 100 * cs.length →
      (exec cs db).lapsed t = [] ∧
        ∀ c : Call, c.Ticks t → perform c (exec cs db) = (.ok (.reaped 0), exec cs db)) := by
  refine ⟨fun c hop halone hforward hclock => perform_reap hreach hop halone hforward hclock,
    fun cs hcs hlen => ?_⟩
  have hnil : (exec cs db).lapsed t = [] := by
    refine List.length_eq_zero_iff.mp ?_
    rw [exec_lapsed hreach hcs]
    exact Nat.sub_eq_zero_of_le hlen
  refine ⟨hnil, fun c hc => ?_⟩
  have htick := hc.perform (hreach.exec cs)
  rw [hnil] at htick
  exact Prod.ext htick.1 htick.2.eq_of_nil

/-- The lease of the sample run is reaped when it has run out. -/
theorem reap_exact_sample :
    (@perform Sample.digest ⟨Sample.server, .reap, fun _ => ⟨fun _ => 60000000, 0, 0, fun _ => false⟩⟩
      Sample.leasedDb).1 = .ok (.reaped 1) ∧
    (@exec Sample.digest [⟨Sample.server, .reap, fun _ => ⟨fun _ => 60000000, 0, 0, fun _ => false⟩⟩]
      Sample.leasedDb).lapsed 60000000 = [] := by
  have h := @reap_exact Sample.digest Sample.leasedDb Sample.leased_reachable 60000000
  have hlen : (Sample.leasedDb.lapsed 60000000).length = 1 := by decide
  constructor
  · have hfirst := (h.1 ⟨Sample.server, .reap, fun _ => ⟨fun _ => 60000000, 0, 0, fun _ => false⟩⟩ rfl
      (fun _ _ => rfl) (fun _ _ _ _ _ => le_refl _) (fun _ _ _ => rfl)).1
    rwa [hlen] at hfirst
  · refine (h.2 _ (fun c hc => ?_) (by rw [hlen]; decide)).1
    rw [List.mem_singleton.mp hc]
    exact ⟨rfl, fun _ _ => rfl, fun _ _ => rfl⟩

end Rungrid
