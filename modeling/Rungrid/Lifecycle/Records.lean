-- SUMMARY: The timestamps and exit codes of attempts: what each state says about them, and their order in time.
import Rungrid.Lifecycle.Leases

/-!
# Attempt records

Every column of an attempt is written by another statement: the lease sets when it was
created, `StartAttempt` when it started, and a result, a cancellation or the reaper when
it finished. With a clock that does not go backwards they agree with the state and are
in order, and the attempts of one job follow each other.
-/

namespace Rungrid

/-- The columns of an attempt agree with its state. -/
structure AttemptRec.Recorded (a : AttemptRec) : Prop where
  finished : a.finishedAt = none ↔ a.state = .leased ∨ a.state = .running
  unstarted : a.state = .leased → a.startedAt = none
  started : a.state = .running ∨ a.state = .succeeded ∨ a.state = .failed → a.startedAt.isSome
  start : ∀ t, a.startedAt = some t → a.createdAt ≤ t
  finish : ∀ u, a.finishedAt = some u → a.createdAt ≤ u ∧ ∀ t, a.startedAt = some t → t ≤ u
  exit : a.exitCode.isSome ↔ a.state = .succeeded ∨ a.state = .failed
  success : a.state = .succeeded → a.exitCode = some 0

/-- The records of all attempts. The attempts of a job follow each other. -/
structure Db.Recorded (db : Db) : Prop where
  each : ∀ a ∈ db.attempts, a.Recorded
  next : ∀ a ∈ db.attempts, ∀ b ∈ db.attempts, a.jobID = b.jobID →
    a.attemptNumber < b.attemptNumber → ∃ u, a.finishedAt = some u ∧ u ≤ b.createdAt

/-- The attempt was created and started at instants of `R`. -/
def AttemptRec.Opened (R : Time → Prop) (a : AttemptRec) : Prop :=
  R a.createdAt ∧ ∀ t, a.startedAt = some t → R t

/-- All columns are instants of `R`. -/
def AttemptRec.Dated (R : Time → Prop) (a : AttemptRec) : Prop :=
  a.Opened R ∧ ∀ u, a.finishedAt = some u → R u

theorem AttemptState.active_iff {s : AttemptState} :
    s.active = true ↔ s = .leased ∨ s = .running := by
  cases s <;> simp [AttemptState.active]

section Rows

variable {R : Time → Prop} {a : AttemptRec} {t : Time}

theorem AttemptRec.Recorded.renew (h : a.Recorded) (duration : Int) : (a.renew duration t).Recorded :=
  { h with }

theorem AttemptRec.Recorded.no_exit (h : a.Recorded) (hact : a.state.active = true) :
    a.exitCode = none := by
  have hexit := h.exit
  rcases AttemptState.active_iff.mp hact with hs | hs <;> simpa [hs] using hexit

theorem AttemptRec.Recorded.begin (h : a.Recorded) (hs : a.state = .leased)
    (ht : a.createdAt ≤ t) : (a.start t).Recorded := by
  have hfin : a.finishedAt = none := h.finished.mpr (.inl hs)
  have hexit : a.exitCode = none := h.no_exit (AttemptState.active_iff.mpr (.inl hs))
  refine ⟨?_, ?_, ?_, ?_, ?_, ?_, ?_⟩ <;> simp [AttemptRec.start, hfin, hexit, ht]

/-- The three ways an attempt ends differ in the exit code. -/
theorem AttemptRec.Recorded.close {a' : AttemptRec} (h : a.Recorded)
    (hopen : a.Opened (· ≤ t)) (hcreated : a'.createdAt = a.createdAt)
    (hstarted : a'.startedAt = a.startedAt) (hfinished : a'.finishedAt = some t)
    (hstate : a'.state.active = false)
    (hrun : a'.state = .succeeded ∨ a'.state = .failed → a.state = .running)
    (hexit : a'.exitCode.isSome ↔ a'.state = .succeeded ∨ a'.state = .failed)
    (hzero : a'.state = .succeeded → a'.exitCode = some 0) : a'.Recorded := by
  have hnot : ¬ (a'.state = .leased ∨ a'.state = .running) := by
    rw [← AttemptState.active_iff, hstate]
    exact Bool.false_ne_true
  refine ⟨?_, ?_, ?_, ?_, ?_, hexit, hzero⟩
  · simp [hfinished, hnot]
  · exact fun hs => absurd (.inl hs) hnot
  · rintro (hs | hs)
    · exact absurd (.inr hs) hnot
    · rw [hstarted]
      exact h.started (.inl (hrun hs))
  · intro u hu
    rw [hcreated]
    exact h.start u (hstarted ▸ hu)
  · intro u hu
    obtain rfl : t = u := Option.some.inj (hfinished.symm.trans hu)
    rw [hcreated, hstarted]
    exact hopen

end Rows

section Steps

variable {P : Oracle → Prop} {s : Store} {db db' : Db} {R : Time → Prop}

theorem Db.Recorded.of_eq (h : db.Recorded) (heq : db'.attempts = db.attempts) : db'.Recorded :=
  ⟨heq ▸ h.each, heq ▸ h.next⟩

/-- An active attempt is replaced by a row that keeps its place. -/
theorem Db.Recorded.put {a a' : AttemptRec} (h : db.Recorded)
    (hdb : db'.attempts = Table.put AttemptRec.id a' db.attempts) (ha : db.attempt? a.id = some a)
    (hact : a.state.active = true) (hf : a'.fixed = a.fixed) (hcreated : a'.createdAt = a.createdAt)
    (hrow : a'.Recorded) : db'.Recorded := by
  have hmem := Db.mem_of_attempt? ha
  obtain ⟨hid, hjob, hnumber, -⟩ := AttemptRec.fixed_eq hf
  have hopen : ∀ u, a.finishedAt ≠ some u := fun u hu => by
    rw [(h.each a hmem).finished.mpr (AttemptState.active_iff.mp hact)] at hu
    cases hu
  refine ⟨fun b hb => ?_, fun b hb c hc hsame hlt => ?_⟩
  · rw [hdb] at hb
    rcases Table.mem_put.mp hb with ⟨rfl, -⟩ | ⟨hb, -⟩
    · exact hrow
    · exact h.each b hb
  · rw [hdb] at hb hc
    rcases Table.mem_put.mp hb with ⟨rfl, -⟩ | ⟨hb', -⟩
    · -- No attempt of the job comes after an active one.
      rcases Table.mem_put.mp hc with ⟨rfl, -⟩ | ⟨hc, -⟩
      · exact absurd hlt (lt_irrefl _)
      · rw [hjob] at hsame
        rw [hnumber] at hlt
        obtain ⟨u, hu, -⟩ := h.next a hmem c hc hsame hlt
        exact absurd hu (hopen u)
    · rcases Table.mem_put.mp hc with ⟨rfl, -⟩ | ⟨hc, -⟩
      · rw [hjob] at hsame
        rw [hnumber] at hlt
        rw [hcreated]
        exact h.next b hb' a hmem hsame hlt
      · exact h.next b hb' c hc hsame hlt

/-- The changes that open an attempt for others in the same call. -/
def Change.opens : Change → Bool
  | .leased _ _ | .started _ _ => true
  | _ => false

/-- The active attempts were opened at instants of `R`. -/
def Db.Open (R : Time → Prop) (db : Db) : Prop :=
  ∀ a ∈ db.attempts, a.state.active = true → a.Opened R

theorem Db.Open.put {row : AttemptRec} (h : db.Open R)
    (hdb : db'.attempts = Table.put AttemptRec.id row db.attempts)
    (hrow : row.state.active = true → row.Opened R) : db'.Open R := by
  intro a ha hact
  rw [hdb] at ha
  rcases Table.mem_put.mp ha with ⟨rfl, -⟩ | ⟨ha, -⟩
  · exact hrow hact
  · exact h a ha hact

theorem AttemptRec.Opened.mono {R' : Time → Prop} {a : AttemptRec} (h : a.Opened R)
    (hR : ∀ t, R t → R' t) : a.Opened R' :=
  ⟨hR _ h.1, fun t ht => hR t (h.2 t ht)⟩

/-- A change made after the instants of `R` keeps the records. -/
theorem Effect.keepsRecords {c : Change} (he : Effect P s db c db') (hc : c.opens = false)
    (hP : ∀ o, P o → ∀ i t, R t → t ≤ o.clock i) (h : db.Recorded ∧ db.Open R) : db'.Recorded ∧ db'.Open R := by
  obtain ⟨hrec, hopen⟩ := h
  cases he with
  | leased | started => cases hc
  | renewed hf ho =>
      have hmem := Db.mem_of_attempt? hf.attempt
      have hopened := hopen _ hmem hf.active
      exact ⟨hrec.put rfl hf.attempt hf.active rfl rfl ((hrec.each _ hmem).renew _),
        hopen.put rfl (fun _ => hopened)⟩
  | completed hf hrun hzero ho _ _ =>
      have hmem := Db.mem_of_attempt? hf.attempt
      have hbefore := (hopen _ hmem hf.active).mono (hP _ ho 0)
      refine ⟨hrec.put rfl hf.attempt hf.active rfl rfl ?_, hopen.put rfl (fun hact => by cases hact)⟩
      exact (hrec.each _ hmem).close hbefore rfl rfl rfl rfl (fun _ => hrun)
        (by simp [AttemptRec.finish]) (fun _ => congrArg some hzero)
  | failed hf hrun ho _ _ =>
      have hmem := Db.mem_of_attempt? hf.attempt
      have hbefore := (hopen _ hmem hf.active).mono (hP _ ho 0)
      refine ⟨hrec.put rfl hf.attempt hf.active rfl rfl ?_, hopen.put rfl (fun hact => by cases hact)⟩
      exact (hrec.each _ hmem).close hbefore rfl rfl rfl rfl (fun _ => hrun)
        (by simp [AttemptRec.finish]) (fun hs => by cases hs)
  | cancelled _ _ _ _ ha _ hact ho _ _ =>
      have hmem := Db.mem_of_attempt? ha
      have hbefore := (hopen _ hmem hact).mono (hP _ ho 0)
      have hcode := (hrec.each _ hmem).no_exit hact
      refine ⟨hrec.put rfl ha hact rfl rfl ?_, hopen.put rfl (fun hact => by cases hact)⟩
      exact (hrec.each _ hmem).close hbefore rfl rfl rfl rfl (by simp [AttemptRec.cancel])
        (by simp [AttemptRec.cancel, hcode]) (fun hs => by cases hs)
  | expired ha _ _ hexp ho _ _ =>
      have hact := (Bool.and_eq_true_iff.mp hexp).1
      have hmem := Db.mem_of_attempt? ha
      have hbefore := (hopen _ hmem hact).mono (hP _ ho 0)
      have hcode := (hrec.each _ hmem).no_exit hact
      refine ⟨hrec.put rfl ha hact rfl rfl ?_, hopen.put rfl (fun hact => by cases hact)⟩
      exact (hrec.each _ hmem).close hbefore rfl rfl rfl rfl (by simp [AttemptRec.expire])
        (by simp [AttemptRec.expire, hcode]) (fun hs => by cases hs)
  | _ => exact ⟨hrec.of_eq rfl, hopen⟩

/-- A change that opens an attempt is made after its earlier columns and after all the
attempts of its job. -/
theorem Effect.opensRecord {c : Change} (he : Effect P s db c db') (hc : c.opens = true)
    (hP : ∀ o, P o → ∀ i t, R t → t ≤ o.clock i) (hdated : ∀ a ∈ db.attempts, a.Dated R)
    (hqueued : ∀ j, db.job? j.id = some j → j.state = .queued →
      ∀ a ∈ db.attemptsOf j.id, a.state.active = false)
    (h : db.Recorded) : db'.Recorded := by
  cases he with
  | started hf hs ho _ _ =>
      have hmem := Db.mem_of_attempt? hf.attempt
      have hbefore := hP _ ho 0 _ (hdated _ hmem).1.1
      exact h.put rfl hf.attempt hf.active rfl rfl ((h.each _ hmem).begin hs hbefore)
  | @leased worker w j id token requestID o _ _ _ _ hj hplace _ _ ho _ _ =>
      have hq : j.state = .queued := by
        simp only [JobRec.placeable, Bool.and_eq_true, decide_eq_true_eq] at hplace
        exact hplace.1
      -- The job's attempts have finished, at instants of `R`.
      have hended : ∀ a ∈ db.attempts, a.jobID = j.id → ∃ u, a.finishedAt = some u ∧ R u := by
        intro a ha hjob
        cases hu : a.finishedAt with
        | none =>
            have hact := AttemptState.active_iff.mpr ((h.each a ha).finished.mp hu)
            rw [hqueued j hj hq a (Db.mem_attemptsOf.mpr ⟨ha, hjob⟩)] at hact
            cases hact
        | some u => exact ⟨u, rfl, (hdated a ha).2 u hu⟩
      refine ⟨fun a ha => ?_, fun a ha b hb hsame hlt => ?_⟩
      · rcases List.mem_append.mp ha with ha | ha
        · exact h.each a ha
        · rw [List.mem_singleton.mp ha]
          constructor <;> simp [newAttempt]
      · rcases List.mem_append.mp ha with ha | ha
        · rcases List.mem_append.mp hb with hb | hb
          · exact h.next a ha b hb hsame hlt
          · obtain rfl := List.mem_singleton.mp hb
            obtain ⟨u, hu, hR⟩ := hended a ha hsame
            exact ⟨u, hu, hP o ho 2 u hR⟩
        · obtain rfl := List.mem_singleton.mp ha
          rcases List.mem_append.mp hb with hb | hb
          · exact absurd hlt (Db.lt_nextNumber hb hsame.symm).asymm
          · obtain rfl := List.mem_singleton.mp hb
            exact absurd hlt (lt_irrefl _)
  | _ => cases hc

theorem Changes.keepsRecords {cs : List Change} (h : Changes P s db cs db')
    (hcs : ∀ c ∈ cs, c.opens = false) (hP : ∀ o, P o → ∀ i t, R t → t ≤ o.clock i)
    (hdb : db.Recorded ∧ db.Open R) : db'.Recorded ∧ db'.Open R := by
  induction h with
  | nil => exact hdb
  | cons he _ ih =>
      exact ih (fun c hc => hcs c (List.mem_cons_of_mem _ hc))
        (he.keepsRecords (hcs _ List.mem_cons_self) hP hdb)

/-- An attempt is opened by a call that changes nothing else but the worker's row. -/
theorem Op.Makes.opens {op : Op} {c : Change} {cs : List Change} (h : op.Makes P db cs)
    (hc : c ∈ cs) (ho : c.opens = true) : ∃ worker, cs = [.touched worker, c] := by
  have hserved : c.served = true := by cases c <;> first | rfl | cases ho
  obtain ⟨m, r, cs', rfl, rfl, hc', hs⟩ := h.served hc hserved
  refine ⟨r.workerID, ?_⟩
  cases hs with
  | idle => cases hc'
  | alive => cases hc'
  | released =>
      obtain rfl := List.mem_singleton.mp hc'
      cases ho
  | leased => rw [List.mem_singleton.mp hc']
  | attempt hf hmc =>
      cases m with
      | startAttempt =>
          rcases hmc with rfl | rfl
          · rw [List.mem_singleton.mp hc']
          · rw [List.mem_singleton.mp hc'] at ho
            cases ho
      | heartbeat =>
          obtain rfl : cs' = _ := hmc
          rw [List.mem_singleton.mp hc'] at ho
          cases ho
      | reportProgress | completeAttempt | failAttempt =>
          obtain ⟨n, rfl⟩ := hmc
          rcases List.mem_append.mp hc' with hc' | hc'
          · rw [List.eq_of_mem_replicate hc'] at ho
            cases ho
          · rw [List.mem_singleton.mp hc'] at ho
            cases ho
      | _ => exact hmc.elim

end Steps

/-! ## Runs -/

section Runs

variable [Sha256]

/-- The columns hold instants at which calls of the run have read the clock. -/
theorem exec_dated (cs : List Call) : ∀ a ∈ (exec cs Db.empty).attempts,
    a.Dated (fun t => ∃ c ∈ cs, c.Reads t) := by
  let R : Time → Prop := fun t => ∃ c ∈ cs, c.Reads t
  let I : Db → Prop := fun db => ∀ a ∈ db.attempts, a.Dated R
  have hinv : (exec cs Db.empty).Sound ∧ I (exec cs Db.empty) := by
    refine Machine.exec_inv (I := fun db => db.Sound ∧ I db) perform_transactional cs ?_
      ⟨Db.sound_empty, by intro a ha; cases ha⟩
    rintro c hc db res db' ⟨hdb, hI⟩ hres
    have hout := perform_outcome (P := fun o => ∃ n, o = c.oracle n) (fun n => ⟨n, rfl⟩) hdb.wf
      hdb.receipts hres
    refine ⟨hout.sound hdb, hout.inv (fun _ h => h) (fun _ hI he => ?_) hdb.wf hI⟩
    have hread : ∀ o i, (∃ n, o = c.oracle n) → R (o.clock i) := by
      rintro o i ⟨n, rfl⟩
      exact ⟨c, hc, n, i, rfl⟩
    have hput : ∀ {db db' : Db} {row : AttemptRec}, I db →
        db'.attempts = Table.put AttemptRec.id row db.attempts → row.Dated R → I db' := by
      intro db db' row hI hdb hrow a ha
      rw [hdb] at ha
      rcases Table.mem_put.mp ha with ⟨rfl, -⟩ | ⟨ha, -⟩
      · exact hrow
      · exact hI a ha
    -- A row that keeps when it was opened and has finished at a reading of this call.
    have hclose : ∀ {db : Db} {id : Uuid} {a a' : AttemptRec} {o : Oracle}, I db →
        db.attempt? id = some a → (∃ n, o = c.oracle n) → a'.createdAt = a.createdAt →
        a'.startedAt = a.startedAt → a'.finishedAt = some (o.clock 0) → a'.Dated R := by
      intro db id a a' o hI ha ho hcreated hstarted hfinished
      have hdated := hI a (Db.mem_of_attempt? ha)
      refine ⟨⟨hcreated ▸ hdated.1.1, hstarted ▸ hdated.1.2⟩, fun u hu => ?_⟩
      rw [hfinished] at hu
      obtain rfl := Option.some.inj hu
      exact hread o 0 ho
    cases he with
    | leased _ _ _ _ _ _ ho _ _ =>
        intro a ha
        rcases List.mem_append.mp ha with ha | ha
        · exact hI a ha
        · rw [List.mem_singleton.mp ha]
          exact ⟨⟨hread _ 2 ho, fun t ht => by cases ht⟩, fun u hu => by cases hu⟩
    | renewed hf _ =>
        have hdated := hI _ (Db.mem_of_attempt? hf.attempt)
        exact hput hI rfl hdated
    | started hf _ ho _ _ =>
        have hdated := hI _ (Db.mem_of_attempt? hf.attempt)
        refine hput hI rfl ⟨⟨hdated.1.1, fun t ht => ?_⟩, hdated.2⟩
        obtain rfl := Option.some.inj ht
        exact hread _ 0 ho
    | completed hf _ _ ho _ _ => exact hput hI rfl (hclose hI hf.attempt ho rfl rfl rfl)
    | failed hf _ ho _ _ => exact hput hI rfl (hclose hI hf.attempt ho rfl rfl rfl)
    | cancelled _ _ _ _ ha _ _ ho _ _ => exact hput hI rfl (hclose hI ha ho rfl rfl rfl)
    | expired ha _ _ _ ho _ _ => exact hput hI rfl (hclose hI ha ho rfl rfl rfl)
    | _ => exact hI
  exact hinv.2

/-- A call of a run whose clock does not go backwards keeps the records. -/
theorem perform_recorded {cs : List Call} {c : Call} (hclock : ClockForward (cs ++ [c]))
    (h : (exec cs Db.empty).Recorded) : (perform c (exec cs Db.empty)).2.Recorded := by
  have hreach : Reachable (exec cs Db.empty) := ⟨cs, rfl⟩
  obtain ⟨hsound, hlog⟩ := hreach.logged
  cases happ : c.applied (exec cs Db.empty) with
  | false =>
      rw [(perform_unapplied hsound happ).1]
      exact h
  | true =>
      obtain ⟨changes, mid, hmakes, hcs, heq⟩ := c.applied_changes
        (P := fun o => ∃ n, o = c.oracle n) (fun n => ⟨n, rfl⟩) hsound happ
      have hdated := exec_dated cs
      have hbetween := (List.pairwise_append.mp hclock.between).2.2
      have hP : ∀ o, (∃ n, o = c.oracle n) → ∀ i t, (∃ d ∈ cs, d.Reads t) → t ≤ o.clock i := by
        rintro o ⟨n, rfl⟩ i t ⟨d, hd, ht⟩
        exact hbetween d hd c (by simp) t _ ht ⟨n, i, rfl⟩
      suffices hmid : mid.Recorded by
        rw [heq]
        exact hmid.of_eq rfl
      by_cases hnone : ∀ x ∈ changes, x.opens = false
      · exact (hcs.keepsRecords hnone hP ⟨h, fun a ha _ => (hdated a ha).1⟩).1
      · push Not at hnone
        obtain ⟨x, hx, hopens⟩ := hnone
        obtain ⟨worker, rfl⟩ := hmakes.opens hx (by simpa using hopens)
        cases hcs with
        | @cons _ mid' _ _ _ htouched hrest =>
            have hattempts := htouched.touched_attempts
            have hjobs : mid'.jobs = (exec cs Db.empty).jobs := by
              cases htouched
              rfl
            refine hrest.of_one.opensRecord (by simpa using hopens) hP ?_ ?_ (h.of_eq hattempts)
            · rw [hattempts]
              exact hdated
            · intro j hj hq a ha
              rw [Db.job?, hjobs] at hj
              rw [Db.attemptsOf, hattempts] at ha
              have hcoh := Db.jobCoherent (hlog.coherent hsound.wf (Db.mem_of_job? hj))
              cases hact : a.state.active with
              | false => rfl
              | true =>
                  have hjob := hcoh.active_iff.mp ⟨a, ha, hact⟩
                  rw [hq] at hjob
                  cases hjob

end Runs

/-- In every run whose clock does not go backwards the record of every attempt agrees
with its state and is in order, and the attempts of a job follow each other. -/
theorem attempts_recorded [Sha256] (cs : List Call) (hclock : ClockForward cs) :
    (exec cs Db.empty).Recorded := by
  induction cs using List.reverseRecOn with
  | nil => exact ⟨(by intro a ha; cases ha), (by intro a ha; cases ha)⟩
  | append_singleton cs c ih =>
      rw [exec_concat]
      exact perform_recorded hclock (ih hclock.append_left)

theorem attempts_recorded_sample : Sample.leasedDb.Recorded ∧ Sample.attempt ∈ Sample.leasedDb.attempts := by
  have h := @attempts_recorded Sample.digest Sample.leased Sample.leased_forward
  rw [Sample.leased_exec] at h
  exact ⟨h, by simp [Sample.leasedDb]⟩

end Rungrid
