-- SUMMARY: Leases and the clock: an attempt can be renewed exactly as long as it cannot be reaped.
import Rungrid.Lifecycle.Fencing

/-!
# Leases

The fence asks that both the lease and the deadline are ahead, and the reaper asks
only whether the lease is over. The two agree because the lease of an active
attempt never exceeds its deadline. That a renewal never shortens a lease needs
more: the clock does not go backwards and all servers use one lease duration, so
the earlier lease is bounded by the one counted from the present reading.
-/

namespace Rungrid

/-! ## Clocks -/

/-- The readings of a call do not go backwards: neither from one statement to the
next nor within a statement. -/
def Call.Forward (c : Call) : Prop :=
  ∀ n i m k, n < m ∨ (n = m ∧ i ≤ k) → (c.oracle n).clock i ≤ (c.oracle m).clock k

/-- The clock of the database does not go backwards in a run. -/
structure ClockForward (cs : List Call) : Prop where
  within : ∀ c ∈ cs, c.Forward
  between : cs.Pairwise (fun c d => ∀ t u, c.Reads t → d.Reads u → t ≤ u)

/-! ## The bound on leases -/

/-- The lease does not exceed the deadline, nor what a renewal for `duration`
seconds would give at the instants of `T`. -/
def AttemptRec.Bounded (duration : Int) (T : Time → Prop) (a : AttemptRec) : Prop :=
  a.leaseExpiresAt ≤ a.deadlineAt ∧ ∀ t, T t → a.leaseExpiresAt ≤ t + seconds duration

/-- The leases of the active attempts are bounded. -/
def Db.Timed (duration : Int) (T : Time → Prop) (db : Db) : Prop :=
  ∀ a ∈ db.attempts, a.state.active = true → a.Bounded duration T

/-- The readings of a statement are in order and not after the instants of `T`. -/
def Oracle.Before (T : Time → Prop) (o : Oracle) : Prop :=
  o.clock 0 ≤ o.clock 1 ∧ ∀ i t, T t → o.clock i ≤ t

theorem seconds_mono {m n : Int} (h : m ≤ n) : seconds m ≤ seconds n := by
  unfold seconds
  omega

section Bound

variable {s : Store} {T : Time → Prop} {db db' : Db} {c : Change} {duration : Int}

theorem Db.Timed.append {row : AttemptRec} (h : db.Timed duration T)
    (hdb : db'.attempts = db.attempts ++ [row]) (hrow : row.Bounded duration T) :
    db'.Timed duration T := by
  intro a ha hact
  rw [hdb] at ha
  rcases List.mem_append.mp ha with ha | ha
  · exact h a ha hact
  · rw [List.mem_singleton.mp ha]
    exact hrow

theorem Db.Timed.put {row : AttemptRec} (h : db.Timed duration T)
    (hdb : db'.attempts = Table.put AttemptRec.id row db.attempts)
    (hrow : row.state.active = true → row.Bounded duration T) : db'.Timed duration T := by
  intro a ha hact
  rw [hdb] at ha
  rcases Table.mem_put.mp ha with ⟨rfl, -⟩ | ⟨ha, -⟩
  · exact hrow hact
  · exact h a ha hact

/-- Every change made by a server with the lease duration keeps the bound. -/
theorem Effect.timed (he : Effect (Oracle.Before T) s db c db') (h : db.Timed s.leaseSeconds T) :
    db'.Timed s.leaseSeconds T := by
  cases he with
  | leased _ _ _ _ _ _ ho _ _ =>
      refine h.append rfl ⟨?_, fun t ht => ?_⟩
      · exact Int.add_le_add ho.1 (seconds_mono (min_le_right _ _))
      · exact Int.add_le_add (ho.2 0 t ht) (seconds_mono (min_le_left _ _))
  | renewed hf ho =>
      refine h.put rfl (fun _ => ⟨min_le_left _ _, fun t ht => (min_le_right _ _).trans ?_⟩)
      exact Int.add_le_add (ho.2 0 t ht) le_rfl
  | started hf _ _ _ _ =>
      have hbound := h _ (Db.mem_of_attempt? hf.attempt) hf.active
      exact h.put rfl (fun _ => hbound)
  | completed => exact h.put rfl (fun hact => by cases hact)
  | failed => exact h.put rfl (fun hact => by cases hact)
  | cancelled => exact h.put rfl (fun hact => by cases hact)
  | expired => exact h.put rfl (fun hact => by cases hact)
  | _ => exact h

theorem Effect.touched_attempts {P : Oracle → Prop} {worker : String}
    (h : Effect P s db (.touched worker) db') : db'.attempts = db.attempts := by
  cases h
  rfl

theorem Effect.renewed_attempt {P : Oracle → Prop} {id : Uuid}
    (h : Effect P s db (.renewed id) db') :
    ∃ a o, P o ∧ db.attempt? id = some a ∧
      db'.attempt? id = some (a.renew s.leaseSeconds (o.clock 0)) := by
  cases h with
  | renewed hf ho => exact ⟨_, _, ho, hf.attempt, Db.attempt?_putAttempt hf.attempt rfl⟩

/-- A renewal for the duration of the earlier leases extends the lease. -/
theorem AttemptRec.Bounded.renew {a : AttemptRec} {t : Time} (h : a.Bounded duration T) (ht : T t) :
    a.leaseExpiresAt ≤ (a.renew duration t).leaseExpiresAt :=
  le_min h.1 (h.2 t ht)

end Bound

section Runs

variable [Sha256] {T : Time → Prop} {duration : Int} {cs : List Call}

theorem exec_timed (hservers : ∀ c ∈ cs, c.server.leaseSeconds = duration)
    (hforward : ∀ c ∈ cs, c.Forward) (hT : ∀ c ∈ cs, ∀ t u, c.Reads t → T u → t ≤ u) :
    (exec cs Db.empty).Timed duration T := by
  have hinv : (exec cs Db.empty).Sound ∧ (exec cs Db.empty).Timed duration T := by
    refine Machine.exec_inv (I := fun db => db.Sound ∧ db.Timed duration T) perform_transactional cs
      ?_ ⟨Db.sound_empty, by intro a ha; cases ha⟩
    rintro c hc db res db' ⟨hdb, htimed⟩ hres
    have hP : ∀ n, (c.oracle n).Before T := fun n =>
      ⟨hforward c hc n 0 n 1 (.inr ⟨rfl, Nat.zero_le 1⟩), fun i t ht => hT c hc _ t ⟨n, i, rfl⟩ ht⟩
    have hout := perform_outcome hP hdb.wf hdb.receipts hres
    obtain rfl := hservers c hc
    exact ⟨hout.sound hdb, hout.inv (fun _ h => h) (fun _ h he => he.timed h) hdb.wf htimed⟩
  exact hinv.2

/-! ## Renewals -/

/-- An applied heartbeat of an attempt renews it at one of its readings. -/
theorem perform_heartbeat {db : Db} (hdb : db.Sound) {c : Call} {r : Request} {a : AttemptRec}
    (hop : c.op = .rpc .heartbeat r) (hid : Uuid.parse r.attemptID = some a.id)
    (ha : a ∈ db.attempts) (happ : c.applied db = true) :
    ∃ t, c.Reads t ∧ a.state.active = true ∧
      (perform c db).2.attempt? a.id = some (a.renew c.server.leaseSeconds t) := by
  obtain ⟨cs, mid, hmakes, hcs, heq⟩ := c.applied_changes
    (P := fun o => ∃ n, o = c.oracle n) (fun n => ⟨n, rfl⟩) hdb happ
  rw [hop] at hmakes
  obtain ⟨w, b, j, cs', -, -, hf, rfl, rfl⟩ := hmakes.fenced rfl (Request.attemptID_ne hid)
  obtain rfl : a = b := hdb.wf.attempt_unique ha (Db.mem_of_attempt? hf.attempt)
    (Option.some.inj (hid.symm.trans hf.named))
  cases hcs with
  | @cons _ mid' _ _ _ htouched hrest =>
      obtain ⟨b, o, ⟨n, rfl⟩, hb, hb'⟩ := hrest.of_one.renewed_attempt
      have hab : mid'.attempt? a.id = some a := by
        rw [Db.attempt?, htouched.touched_attempts]
        exact hf.attempt
      obtain rfl := Option.some.inj (hab.symm.trans hb)
      refine ⟨_, ⟨n, 0, rfl⟩, hf.active, ?_⟩
      rw [heq]
      exact hb'

/-! ## Leases only grow -/

/-- No attempt is lost and no lease is shortened. -/
def Db.LeasesGrow (db db' : Db) : Prop :=
  ∀ id a, db.attempt? id = some a → ∃ b, db'.attempt? id = some b ∧ a.leaseExpiresAt ≤ b.leaseExpiresAt

section Grow

omit [Sha256]

variable {P : Oracle → Prop} {s : Store} {db db' db'' : Db}

theorem Db.LeasesGrow.refl (db : Db) : db.LeasesGrow db := fun _ a h => ⟨a, h, le_rfl⟩

theorem Db.LeasesGrow.trans (h : db.LeasesGrow db') (h' : db'.LeasesGrow db'') :
    db.LeasesGrow db'' := by
  intro id a ha
  obtain ⟨b, hb, hab⟩ := h id a ha
  obtain ⟨c, hc, hbc⟩ := h' id b hb
  exact ⟨c, hc, hab.trans hbc⟩

theorem Db.LeasesGrow.of_eq (h : db'.attempts = db.attempts) : db.LeasesGrow db' := by
  intro id a ha
  exact ⟨a, by rw [Db.attempt?, h]; exact ha, le_rfl⟩

theorem Db.LeasesGrow.put {a a' : AttemptRec}
    (h : db'.attempts = Table.put AttemptRec.id a' db.attempts) (ha : db.attempt? a.id = some a)
    (hid : a'.id = a.id) (hle : a.leaseExpiresAt ≤ a'.leaseExpiresAt) : db.LeasesGrow db' := by
  intro id b hb
  by_cases hk : a'.id = id
  · subst hk
    rw [hid] at hb
    obtain rfl := Option.some.inj (ha.symm.trans hb)
    refine ⟨a', ?_, hle⟩
    rw [Db.attempt?, h]
    exact Table.find_put_self (by rw [hid]; exact ha)
  · refine ⟨b, ?_, le_rfl⟩
    rw [Db.attempt?, h, Table.find_put_ne _ hk]
    exact hb

/-- A change keeps every lease, unless it is a renewal: that one needs the bound. -/
theorem Effect.leasesGrow {c : Change} (he : Effect P s db c db')
    (h : ∀ id, c = .renewed id → db.Timed s.leaseSeconds T ∧ ∀ o, P o → T (o.clock 0)) :
    db.LeasesGrow db' := by
  cases he with
  | leased =>
      intro id a ha
      exact ⟨a, Table.find_append_of_some _ ha, le_rfl⟩
  | renewed hf ho =>
      obtain ⟨htimed, hT⟩ := h _ rfl
      have hbound := htimed _ (Db.mem_of_attempt? hf.attempt) hf.active
      exact .put rfl hf.attempt rfl (hbound.renew (hT _ ho))
  | started hf => exact .put rfl hf.attempt rfl le_rfl
  | completed hf => exact .put rfl hf.attempt rfl le_rfl
  | failed hf => exact .put rfl hf.attempt rfl le_rfl
  | cancelled _ _ _ _ ha => exact .put rfl ha rfl le_rfl
  | expired ha => exact .put rfl ha rfl le_rfl
  | _ => exact .of_eq rfl

theorem Changes.leasesGrow {cs : List Change} (h : Changes P s db cs db')
    (hcs : ∀ id, .renewed id ∉ cs) : db.LeasesGrow db' := by
  induction h with
  | nil => exact .refl _
  | cons he _ ih =>
      have hhead := he.leasesGrow (T := fun _ => True)
        (fun id hid => absurd (hid ▸ List.mem_cons_self) (hcs id))
      exact hhead.trans (ih (fun id hmem => hcs id (List.mem_cons_of_mem _ hmem)))

/-- Only a heartbeat renews, and it changes nothing else but the worker's row. -/
theorem Op.Makes.renewed {op : Op} {cs : List Change} {id : Uuid} (h : op.Makes P db cs)
    (hmem : .renewed id ∈ cs) : ∃ worker id, cs = [.touched worker, .renewed id] := by
  obtain ⟨m, r, a, j, cs', rfl, -, rfl, hmc⟩ := h.ofAttempt hmem rfl
  cases m with
  | heartbeat =>
      obtain rfl : cs' = [.renewed a.id] := hmc
      exact ⟨_, _, rfl⟩
  | startAttempt => rcases hmc with rfl | rfl <;> simp at hmem
  | reportProgress =>
      obtain ⟨n, rfl⟩ := hmc
      simp [List.mem_replicate] at hmem
  | completeAttempt =>
      obtain ⟨n, rfl⟩ := hmc
      simp [List.mem_replicate] at hmem
  | failAttempt =>
      obtain ⟨n, rfl⟩ := hmc
      simp [List.mem_replicate] at hmem
  | _ => exact hmc.elim

end Grow

omit [Sha256] in
theorem ClockForward.append_left {cs ds : List Call} (h : ClockForward (cs ++ ds)) : ClockForward cs :=
  ⟨fun c hc => h.within c (List.mem_append_left ds hc), (List.pairwise_append.mp h.between).1⟩

/-- A call of a run with one lease duration shortens no lease. -/
theorem perform_leasesGrow {c : Call} (hservers : ∀ d ∈ cs ++ [c], d.server.leaseSeconds = duration)
    (hclock : ClockForward (cs ++ [c])) :
    (exec cs Db.empty).LeasesGrow (perform c (exec cs Db.empty)).2 := by
  have hsound := exec_sound cs Db.sound_empty
  cases happ : c.applied (exec cs Db.empty) with
  | false =>
      rw [(perform_unapplied hsound happ).1]
      exact .refl _
  | true =>
      obtain ⟨changes, mid, hmakes, hcs, heq⟩ := c.applied_changes
        (P := fun o => ∃ n, o = c.oracle n) (fun n => ⟨n, rfl⟩) hsound happ
      rw [heq]
      suffices hgrow : (exec cs Db.empty).LeasesGrow mid from hgrow
      by_cases hnone : ∀ id, .renewed id ∉ changes
      · exact hcs.leasesGrow hnone
      · push Not at hnone
        obtain ⟨id, hmem⟩ := hnone
        obtain ⟨worker, id, rfl⟩ := hmakes.renewed hmem
        cases hcs with
        | @cons _ mid' _ _ _ htouched hrest =>
            have hbetween := (List.pairwise_append.mp hclock.between).2.2
            have htimed := exec_timed (T := c.Reads) (fun d hd => hservers d (List.mem_append_left _ hd))
              hclock.append_left.within (fun d hd t u => hbetween d hd c (by simp) t u)
            rw [← hservers c (by simp)] at htimed
            have htimed' : mid'.Timed c.server.leaseSeconds c.Reads := by
              intro a ha hact
              rw [htouched.touched_attempts] at ha
              exact htimed a ha hact
            refine (Db.LeasesGrow.of_eq htouched.touched_attempts).trans
              (hrest.of_one.leasesGrow (T := c.Reads) (fun _ _ => ⟨htimed', ?_⟩))
            rintro o ⟨n, rfl⟩
            exact ⟨n, 0, rfl⟩

theorem exec_leasesGrow (ds : List Call)
    (hservers : ∀ d ∈ cs ++ ds, d.server.leaseSeconds = duration) (hclock : ClockForward (cs ++ ds)) :
    (exec cs Db.empty).LeasesGrow (exec (cs ++ ds) Db.empty) := by
  induction ds generalizing cs with
  | nil =>
      rw [List.append_nil]
      exact .refl _
  | cons d ds ih =>
      have happend : cs ++ d :: ds = cs ++ [d] ++ ds := by simp
      rw [happend] at hservers hclock ⊢
      have hhead := perform_leasesGrow (fun e he => hservers e (List.mem_append_left ds he))
        hclock.append_left
      rw [← exec_concat] at hhead
      exact hhead.trans (ih hservers hclock)

/-- An expired attempt was expired at a reading of the clock after its lease. -/
theorem exec_expired (cs : List Call) : ∀ a ∈ (exec cs Db.empty).attempts, a.state = .expired →
    ∃ c ∈ cs, ∃ t, c.Reads t ∧ a.leaseExpiresAt ≤ t := by
  let I : Db → Prop := fun db => ∀ a ∈ db.attempts, a.state = .expired →
    ∃ c ∈ cs, ∃ t, c.Reads t ∧ a.leaseExpiresAt ≤ t
  have hinv : (exec cs Db.empty).Sound ∧ I (exec cs Db.empty) := by
    refine Machine.exec_inv (I := fun db => db.Sound ∧ I db) perform_transactional cs ?_
      ⟨Db.sound_empty, by intro a ha; cases ha⟩
    rintro c hc db res db' ⟨hdb, hI⟩ hres
    have hout := perform_outcome (P := fun o => ∃ n, o = c.oracle n) (fun n => ⟨n, rfl⟩) hdb.wf
      hdb.receipts hres
    refine ⟨hout.sound hdb, hout.inv (fun _ h => h) (fun _ hI he => ?_) hdb.wf hI⟩
    have hput : ∀ {db db' : Db} {row : AttemptRec}, I db →
        db'.attempts = Table.put AttemptRec.id row db.attempts → (row.state = .expired →
          ∃ c ∈ cs, ∃ t, c.Reads t ∧ row.leaseExpiresAt ≤ t) → I db' := by
      intro db db' row hI hdb hrow a ha hexp
      rw [hdb] at ha
      rcases Table.mem_put.mp ha with ⟨rfl, -⟩ | ⟨ha, -⟩
      · exact hrow hexp
      · exact hI a ha hexp
    cases he with
    | leased =>
        intro a ha hexp
        rcases List.mem_append.mp ha with ha | ha
        · exact hI a ha hexp
        · rw [List.mem_singleton.mp ha] at hexp
          cases hexp
    | @renewed _ a _ _ hf _ =>
        refine hput hI rfl (fun hexp => ?_)
        have hstate : a.state = .expired := hexp
        have hact := hf.active
        rw [hstate] at hact
        cases hact
    | started => exact hput hI rfl (fun hexp => by cases hexp)
    | completed => exact hput hI rfl (fun hexp => by cases hexp)
    | failed => exact hput hI rfl (fun hexp => by cases hexp)
    | cancelled => exact hput hI rfl (fun hexp => by cases hexp)
    | expired _ _ hoq hexp _ _ _ =>
        obtain ⟨n, rfl⟩ := hoq
        simp only [AttemptRec.expiredAt, Bool.and_eq_true, decide_eq_true_eq] at hexp
        exact hput hI rfl (fun _ => ⟨c, hc, _, ⟨n, 0, rfl⟩, hexp.2⟩)
    | _ => exact hI
  exact hinv.2

end Runs

/-! ## Validity and expiry -/

/-- The reaper looks at an active attempt through its job. -/
theorem Db.reapable_iff {db : Db} (hwf : db.WF) (hlog : db.Logged) {a : AttemptRec} {j : JobRec}
    (ha : a ∈ db.attempts) (hact : a.state.active = true) (hj : db.job? a.jobID = some j) (t : Time) :
    j.state.active = true ∧ (db.reapable j t = true ↔ a.expiredAt t = true) := by
  have hmem : a ∈ db.attemptsOf j.id := Db.mem_attemptsOf.mpr ⟨ha, (Db.job?_id hj).symm⟩
  have hjob := (Db.jobCoherent (hlog.coherent hwf (Db.mem_of_job? hj))).active_iff.mp ⟨a, hmem, hact⟩
  refine ⟨hjob, ?_⟩
  simp only [Db.reapable, hjob, Bool.true_and, List.any_eq_true, Bool.and_eq_true, decide_eq_true_eq]
  constructor
  · rintro ⟨b, hb, hbjob, hexp⟩
    have hbact : b.state.active = true := by
      simp only [AttemptRec.expiredAt, Bool.and_eq_true] at hexp
      exact hexp.1
    rwa [hwf.oneActive a ha b hb (by rw [hbjob, Db.job?_id hj]) hact hbact]
  · intro hexp
    exact ⟨a, ha, (Db.job?_id hj).symm, hexp⟩

/-- The fence and the reaper agree about the active attempt `a` of the job `j`: at
every instant one of them takes it and the other does not. When the fence reads the
clock twice and rejects, the reaper's condition holds at the second reading. -/
structure Db.LeaseExact (db : Db) (a : AttemptRec) (j : JobRec) : Prop where
  within : a.leaseExpiresAt ≤ a.deadlineAt
  complement : ∀ (r : Request) (o : Oracle) (t : Time), r.workerID = a.workerID →
    r.leaseToken = a.leaseToken.text → (∀ i, o.clock i = t) →
    (Store.fence r j.row (a.check o) = true ↔ db.reapable j t = false)
  rejected : ∀ (r : Request) (o : Oracle), r.workerID = a.workerID →
    r.leaseToken = a.leaseToken.text → o.clock 0 ≤ o.clock 1 →
    Store.fence r j.row (a.check o) = false → db.reapable j (o.clock 1) = true
  overdue : ∀ t, a.deadlineAt ≤ t → db.reapable j t = true

theorem Db.leaseExact {db : Db} (hwf : db.WF) (hlog : db.Logged) {a : AttemptRec} {j : JobRec}
    (ha : a ∈ db.attempts) (hact : a.state.active = true) (hj : db.job? a.jobID = some j)
    (hle : a.leaseExpiresAt ≤ a.deadlineAt) : db.LeaseExact a j := by
  have hjob := (Db.reapable_iff hwf hlog ha hact hj 0).1
  have hreap : ∀ t, db.reapable j t = true ↔ a.leaseExpiresAt ≤ t := fun t => by
    rw [(Db.reapable_iff hwf hlog ha hact hj t).2]
    simp [AttemptRec.expiredAt, hact]
  have hfence : ∀ (r : Request) (o : Oracle), r.workerID = a.workerID →
      r.leaseToken = a.leaseToken.text → (Store.fence r j.row (a.check o) = true ↔
        o.clock 0 < a.leaseExpiresAt ∧ o.clock 1 < a.deadlineAt) := fun r o hw ht => by
    simp [Store.fence, AttemptRec.check, AttemptRec.validAt, JobRec.row, hw, ht, hjob, hact]
  refine ⟨hle, fun r o t hw ht ho => ?_, fun r o hw ht ho hno => ?_, fun t ht => ?_⟩
  · rw [hfence r o hw ht, ho 0, ho 1, Bool.eq_false_iff, ne_eq, hreap, not_le]
    exact ⟨fun hv => hv.1, fun hlt => ⟨hlt, hlt.trans_le hle⟩⟩
  · rw [hreap]
    rw [Bool.eq_false_iff, ne_eq, hfence r o hw ht, not_and_or, not_lt, not_lt] at hno
    exact hno.elim (fun h => h.trans ho) (fun h => hle.trans h)
  · rw [hreap]
    exact hle.trans ht

/-- In a run with one lease duration whose clock does not go backwards the fence
and the reaper agree about every active attempt, an applied heartbeat does not
shorten the lease and keeps it within the deadline, and an expired attempt is never
changed again. -/
theorem leases_complement [Sha256] (duration : Int) (cs : List Call)
    (hservers : ∀ c ∈ cs, c.server.leaseSeconds = duration) (hclock : ClockForward cs) :
    (∀ a ∈ (exec cs Db.empty).attempts, a.state.active = true →
      ∃ j, (exec cs Db.empty).job? a.jobID = some j ∧ (exec cs Db.empty).LeaseExact a j) ∧
    (∀ c r, ∀ a ∈ (exec cs Db.empty).attempts, c.server.leaseSeconds = duration →
      ClockForward (cs ++ [c]) → c.op = .rpc .heartbeat r → Uuid.parse r.attemptID = some a.id →
      c.applied (exec cs Db.empty) = true →
      ∃ b, (perform c (exec cs Db.empty)).2.attempt? a.id = some b ∧
        a.leaseExpiresAt ≤ b.leaseExpiresAt ∧ b.leaseExpiresAt ≤ b.deadlineAt ∧
        b.deadlineAt = a.deadlineAt) ∧
    ∀ a ∈ (exec cs Db.empty).attempts, a.state = .expired →
      ∀ ds, (exec ds (exec cs Db.empty)).attempt? a.id = some a := by
  have hreach : Reachable (exec cs Db.empty) := ⟨cs, rfl⟩
  obtain ⟨hsound, hlog⟩ := hreach.logged
  refine ⟨fun a ha hact => ?_, fun c r a ha hc hnext hop hid happ => ?_, fun a ha hexp ds => ?_⟩
  · have htimed := exec_timed (T := fun _ => False) hservers hclock.within (by simp)
    obtain ⟨j, hj⟩ := Option.isSome_iff_exists.mp (hsound.wf.attemptJob a ha)
    exact ⟨j, hj, Db.leaseExact hsound.wf hlog ha hact hj (htimed a ha hact).1⟩
  · have hbetween := (List.pairwise_append.mp hnext.between).2.2
    have htimed := exec_timed (T := c.Reads) hservers hclock.within
      (fun d hd t u => hbetween d hd c (by simp) t u)
    obtain ⟨t, ht, hact, hb⟩ := perform_heartbeat hsound hop hid ha happ
    rw [hc] at hb
    exact ⟨_, hb, (htimed a ha hact).renew ht, min_le_left _ _, rfl⟩
  · have hact : a.state.active = false := by rw [hexp]; rfl
    exact (exec_settles hreach ds).attempt (hsound.wf.attempt_of_mem ha) hact

namespace Sample

theorem reads {s : Store} {op : Op} {t : Nat} {u : Int}
    (h : (⟨s, op, oracle t⟩ : Call).Reads u) : (t : Int) ≤ u ∧ u < t + 1000 := by
  obtain ⟨n, i, h⟩ := h
  have hu : u = (t : Int) + ((min (10 * n + min i 9) 999 : Nat) : Int) := h
  omega

/-- Calls that are a thousand microseconds apart. -/
theorem clockForward (cs : List (Store × Op × Nat))
    (h : cs.Pairwise (fun x y => x.2.2 + 1000 ≤ y.2.2)) :
    ClockForward (cs.map (fun x => ⟨x.1, x.2.1, oracle x.2.2⟩)) := by
  refine ⟨fun c hc => ?_, List.pairwise_map.mpr (h.imp ?_)⟩
  · obtain ⟨x, -, rfl⟩ := List.mem_map.mp hc
    intro n i m k hle
    refine Int.add_le_add_left (Int.ofNat_le.mpr ?_) _
    omega
  · intro x y hle u v hu hv
    have hbefore : (u : Int) < x.2.2 + 1000 := (reads hu).2
    have hafter : (y.2.2 : Int) ≤ v := (reads hv).1
    have hgap : (x.2.2 : Int) + 1000 ≤ y.2.2 := by omega
    exact hbefore.le.trans (hgap.trans hafter)

theorem leased_forward : ClockForward leased :=
  clockForward [(server, submitCall.op, 1000), (server, registerCall.op, 2000),
    (server, leaseCall.op, 3000)] (by simp)

end Sample

/-- The attempt leased in the sample run. -/
theorem leases_complement_sample :
    ∃ j, Sample.leasedDb.job? Sample.jobID = some j ∧ Sample.leasedDb.LeaseExact Sample.attempt j := by
  have h := (@leases_complement Sample.digest 5 Sample.leased (by simp [Sample.leased, Sample.submitCall,
    Sample.registerCall, Sample.leaseCall, Sample.server]) Sample.leased_forward).1
  rw [Sample.leased_exec] at h
  exact h Sample.attempt (by simp [Sample.leasedDb]) rfl

end Rungrid
