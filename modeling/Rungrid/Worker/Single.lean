-- SUMMARY: Processes of at most one attempt of a job run at a time, as long as no exception is raised while they run.
import Rungrid.Worker.Protocol

/-!
# Single execution

A job can be leased again only after its attempt has failed or expired. An attempt
expires when its processes are gone, so what remains is that `FailAttempt` is sent only
when they are. The result of the main path is: it is sent after `kill_group`. The
`FailAttempt` of the `except` branch is sent before the `finally` branch kills the
processes, so it is safe only if there are none.
-/

namespace Rungrid

/-! ## Failed attempts -/

section Failed

variable {P : Oracle → Prop} {s : Store} {db db' : Db} {b : AttemptRec}

/-- A row of a failed attempt is an old one, or the change fails the attempt. -/
theorem Effect.failedRow {c : Change} (h : Effect P s db c db') (hb : b ∈ db'.attempts)
    (hstate : b.state = .failed) : b ∈ db.attempts ∨ ∃ job, c = .failed job b.id := by
  have hput : ∀ {a' : AttemptRec}, db'.attempts = Table.put AttemptRec.id a' db.attempts →
      a'.state ≠ .failed → b ∈ db.attempts := by
    intro a' heq hne
    rw [heq] at hb
    rcases Table.mem_put.mp hb with ⟨rfl, -⟩ | ⟨hold, -⟩
    · exact absurd hstate hne
    · exact hold
  cases h with
  | leased =>
      rcases List.mem_append.mp hb with hold | hnew
      · exact .inl hold
      · rw [List.mem_singleton.mp hnew] at hstate
        cases hstate
  | @renewed _ a _ _ hf =>
      refine .inl (hput rfl (fun hfailed => ?_))
      have hst : a.state = .failed := hfailed
      have hact := hf.active
      rw [hst] at hact
      cases hact
  | @failed _ _ j =>
      rcases Table.mem_put.mp hb with ⟨rfl, -⟩ | ⟨hold, -⟩
      · exact .inr ⟨j.id, rfl⟩
      · exact .inl hold
  | started => exact .inl (hput rfl (by simp [AttemptRec.start]))
  | completed => exact .inl (hput rfl (by simp [AttemptRec.finish]))
  | cancelled => exact .inl (hput rfl (by simp [AttemptRec.cancel]))
  | expired => exact .inl (hput rfl (by simp [AttemptRec.expire]))
  | _ => exact .inl hb

theorem Changes.failedRow {cs : List Change} (h : Changes P s db cs db') (hb : b ∈ db'.attempts)
    (hstate : b.state = .failed) : b ∈ db.attempts ∨ ∃ job, .failed job b.id ∈ cs := by
  induction h with
  | nil => exact .inl hb
  | cons he _ ih =>
      rcases ih hb with hmid | ⟨job, hmem⟩
      · rcases he.failedRow hmid hstate with hold | ⟨job, rfl⟩
        · exact .inl hold
        · exact .inr ⟨job, List.mem_cons_self⟩
      · exact .inr ⟨job, List.mem_cons_of_mem _ hmem⟩

/-- Only `FailAttempt` fails an attempt, and it names it. -/
theorem Op.Makes.failed {op : Op} {cs : List Change} {job id : Uuid} (h : op.Makes P db cs)
    (hmem : .failed job id ∈ cs) :
    ∃ r, op = .rpc .failAttempt r ∧ Uuid.parse r.attemptID = some id := by
  obtain ⟨m, r, a, j, cs', rfl, hf, rfl, hmc⟩ := h.ofAttempt hmem rfl
  cases m with
  | heartbeat =>
      obtain rfl : cs' = [.renewed a.id] := hmc
      simp at hmem
  | startAttempt => rcases hmc with rfl | rfl <;> simp at hmem
  | reportProgress =>
      obtain ⟨n, rfl⟩ := hmc
      simp [List.mem_replicate] at hmem
  | completeAttempt =>
      obtain ⟨n, rfl⟩ := hmc
      simp [List.mem_replicate] at hmem
  | failAttempt =>
      obtain ⟨n, rfl⟩ := hmc
      obtain ⟨-, rfl⟩ : job = j.id ∧ id = a.id := by simpa [List.mem_replicate] using hmem
      exact ⟨r, rfl, hf.named⟩
  | _ => exact hmc.elim

theorem perform_failedRow [Sha256] {c : Call} (hdb : db.Sound) (hb : b ∈ (perform c db).2.attempts)
    (hstate : b.state = .failed) :
    b ∈ db.attempts ∨ ∃ r, c.op = .rpc .failAttempt r ∧ Uuid.parse r.attemptID = some b.id := by
  cases happ : c.applied db with
  | false =>
      rw [(perform_unapplied hdb happ).1] at hb
      exact .inl hb
  | true =>
      obtain ⟨cs, mid, hmakes, hcs, heq⟩ :=
        c.applied_changes (P := fun _ => True) (fun _ => trivial) hdb happ
      rw [heq] at hb
      rcases hcs.failedRow hb hstate with hold | ⟨job, hmem⟩
      · exact .inl hold
      · exact .inr (hmakes.failed hmem)

/-- Of the attempts of a job at most one has neither failed nor expired. -/
theorem Reachable.one_unspent [Sha256] (h : Reachable db) {a : AttemptRec} (ha : a ∈ db.attempts)
    (hb : b ∈ db.attempts) (hjob : a.jobID = b.jobID) (ha' : ¬ a.Spent) (hb' : ¬ b.Spent) : a = b := by
  obtain ⟨hsound, hlog⟩ := h.logged
  obtain ⟨j, hj⟩ := Option.isSome_iff_exists.mp (hsound.wf.attemptJob a ha)
  have hcoh := Db.jobCoherent (hlog.coherent hsound.wf (Db.mem_of_job? hj))
  have hid := Db.job?_id hj
  have hma : a ∈ db.attemptsOf j.id := Db.mem_attemptsOf.mpr ⟨ha, hid.symm⟩
  have hmb : b ∈ db.attemptsOf j.id := Db.mem_attemptsOf.mpr ⟨hb, hjob.symm.trans hid.symm⟩
  have hhigh : ∀ x ∈ db.attemptsOf j.id, ¬ x.Spent → db.Highest j.id x := fun x hx hns =>
    not_not.mp (fun hno => hns (hcoh.past x hx hno))
  by_contra hne
  have hlt := (hhigh a hma ha').2 b hmb (Ne.symm hne)
  have hgt := (hhigh b hmb hb').2 a hma hne
  omega

end Failed

namespace Worker

/-! ## The condition -/

/-- An exception is raised in `execute` only when no process of the command runs, or
when the lease is lost. -/
def Orderly (s : Fleet) : Label → Prop
  | .move id .raise => ∀ e ∈ s.execs, e.id = id → e.live = true → e.lost = true
  | _ => True

/-! ## The invariant -/

section Single

variable [Sha256] [Hashlib] {s : Fleet}

/-- Failing an attempt is asked for only when it has no processes and will have none. -/
structure Fleet.Single (s : Fleet) : Prop where
  asked : ∀ r, .rpc .failAttempt r ∈ s.sent →
    ∃ e ∈ s.execs, e.Names r ∧ e.phase.past = true ∧ e.live = false
  failed : ∀ a ∈ s.db.attempts, a.state = .failed →
    ∃ r, .rpc .failAttempt r ∈ s.sent ∧ Uuid.parse r.attemptID = some a.id
  live : ∀ e ∈ s.execs, e.live = true → e.phase = .running ∨ (e.phase = .handling ∧ e.lost = true)
  unexpired : ∀ e ∈ s.execs, e.live = true → ∀ a, s.db.attempt? e.id = some a → a.state ≠ .expired

omit [Sha256] [Hashlib] in
theorem Fleet.single_initial : Fleet.initial.Single where
  asked := by intro r h; cases h
  failed := by intro a h; cases h
  live := by intro e h; cases h
  unexpired := by intro e h; cases h

omit [Sha256] in
/-- A move of an execution without an exception among its processes. -/
theorem Move.live {e e' : Exec} {a : Act} {ops : List Op} (h : Move s e a e' ops)
    (horderly : a = .raise → e.live = true → e.lost = true)
    (hlive : e.live = true → e.phase = .running ∨ (e.phase = .handling ∧ e.lost = true)) :
    e'.live = true → e'.phase = .running ∨ (e'.phase = .handling ∧ e'.lost = true) := by
  cases h with
  | popen => exact fun _ => .inl rfl
  | raise => exact fun hl => .inr ⟨rfl, horderly rfl hl⟩
  | lose => exact fun hl => (hlive hl).imp_right (fun hh => ⟨hh.1, rfl⟩)
  | started hphase =>
      intro hl
      rcases hlive hl with hrun | hhandle
      · rw [hphase] at hrun; cases hrun
      · rw [hphase] at hhandle; cases hhandle.1
  | exit => intro hl; cases hl
  | kill => intro hl; cases hl
  | collect => intro hl; cases hl
  | leave => intro hl; cases hl
  | cleanup => intro hl; cases hl
  | _ => exact hlive

omit [Sha256] in
theorem Move.unexpired {e e' : Exec} {a : Act} {ops : List Op} (h : Move s e a e' ops)
    (hlive : e.live = true → ∀ a, s.db.attempt? e.id = some a → a.state ≠ .expired) :
    e'.live = true → ∀ a, s.db.attempt? e'.id = some a → a.state ≠ .expired := by
  cases h with
  | popen _ halive => exact fun _ => halive.2
  | exit => intro hl; cases hl
  | kill => intro hl; cases hl
  | collect => intro hl; cases hl
  | leave => intro hl; cases hl
  | cleanup => intro hl; cases hl
  | _ => exact hlive

omit [Sha256] in
/-- A `FailAttempt` is sent by an execution that is past its command. -/
theorem Exec.Sends.past {e : Exec} {r : Request} (h : e.Sends s r .failAttempt)
    (hlive : e.live = true → e.phase = .running ∨ (e.phase = .handling ∧ e.lost = true)) :
    e.phase.past = true ∧ e.live = false := by
  have hover : e.phase.past = true ∧ (e.phase = .handling → e.lost = false) ∧ e.phase ≠ .running := by
    cases h with
    | result hphase _ _ => simp [hphase, Phase.past]
    | fail hphase halive _ => simp [hphase, Phase.past, halive.1]
  refine ⟨hover.1, ?_⟩
  rw [Bool.eq_false_iff]
  intro hl
  rcases hlive hl with hrun | ⟨hhandle, hlost⟩
  · exact hover.2.2 hrun
  · rw [hover.2.1 hhandle] at hlost
    cases hlost

theorem Fleet.Single.serve {c : Call} (h : s.Single) (hsound : s.Sound)
    (hsent : ofExecute c.op = true → c.op ∈ s.sent)
    (hreap : ∀ e ∈ s.execs, e.live = true → ∀ a, (perform c s.db).2.attempt? e.id = some a →
      a.state ≠ .expired) :
    Fleet.Single { s with db := (perform c s.db).2, answers := s.answers ++ answer c s.db } where
  asked := h.asked
  live := h.live
  unexpired := hreap
  failed a ha hstate := by
    rcases perform_failedRow hsound.reach.logged.1 ha hstate with hold | ⟨r, hop, hid⟩
    · exact h.failed a hold hstate
    · refine ⟨r, ?_, hid⟩
      have hmem := hsent (by rw [hop]; rfl)
      rwa [hop] at hmem

omit [Sha256] [Hashlib] in
theorem Fleet.Single.begin {l : Lease} (h : s.Single) :
    Fleet.Single { s with execs := s.execs ++ [⟨l, .starting, false, false, []⟩] } where
  asked r hr := by
    obtain ⟨e, he, hask⟩ := h.asked r hr
    exact ⟨e, List.mem_append_left _ he, hask⟩
  failed := h.failed
  live e he hl := by
    rcases List.mem_append.mp he with he | he
    · exact h.live e he hl
    · rw [List.mem_singleton.mp he] at hl
      cases hl
  unexpired e he hl := by
    rcases List.mem_append.mp he with he | he
    · exact h.unexpired e he hl
    · rw [List.mem_singleton.mp he] at hl
      cases hl

theorem Fleet.Single.move {e e' : Exec} {a : Act} {ops : List Op} (h : s.Single) (hsound : s.Sound)
    (he : e ∈ s.execs) (hmove : Move s e a e' ops) (horderly : Orderly s (.move e.id a)) :
    Fleet.Single { s with execs := Table.put Exec.id e' s.execs, sent := s.sent ++ ops } where
  asked r hr := by
    rcases List.mem_append.mp hr with hold | hnew
    · obtain ⟨x, hx, hnames, hover, hdead⟩ := h.asked r hold
      obtain ⟨y, hy, hlater⟩ := hmove.put_later hsound.keyed he hx
      exact ⟨y, hy, hlater.names.mpr hnames, hlater.past hover hdead⟩
    · obtain ⟨rfl, m, r', heq, hnames, hsends⟩ := hmove.sends hnew
      cases heq
      exact ⟨e', Table.mem_put.mpr (.inl ⟨rfl, e', he, rfl⟩), hnames, hsends.past (h.live e' he)⟩
  failed b hb hstate := by
    obtain ⟨r, hr, hid⟩ := h.failed b hb hstate
    exact ⟨r, List.mem_append_left _ hr, hid⟩
  live x hx := by
    rcases Table.mem_put.mp hx with ⟨rfl, -⟩ | ⟨hx, -⟩
    · refine hmove.live ?_ (h.live e he)
      rintro rfl
      exact horderly e he rfl
    · exact h.live x hx
  unexpired x hx := by
    rcases Table.mem_put.mp hx with ⟨rfl, -⟩ | ⟨hx, -⟩
    · exact hmove.unexpired (h.unexpired e he)
    · exact h.unexpired x hx

theorem Fleet.Reached.single (h : Fleet.Reached Orderly s) : s.Single := by
  induction h with
  | initial => exact Fleet.single_initial
  | step hprev horderly hstep ih =>
      cases hstep with
      | serve hsent hreap => exact ih.serve hprev.sound hsent hreap
      | begin => exact ih.begin
      | move he hmove => exact ih.move hprev.sound he hmove horderly

/-- A request to fail an attempt is about an execution without processes. -/
theorem Fleet.Single.dead (h : s.Single) (hsound : s.Sound) {r : Request} {e : Exec}
    (hr : .rpc .failAttempt r ∈ s.sent) (he : e ∈ s.execs) (hid : Uuid.parse r.attemptID = some e.id) :
    e.live = false := by
  obtain ⟨x, hx, hnames, -, hdead⟩ := h.asked r hr
  have hsame : x.id = e.id := by
    rw [hnames.1, Uuid.parse_text] at hid
    exact Option.some.inj hid
  rwa [hsound.keyed.eq_of_key hx he hsame] at hdead

/-- The attempt of a live execution has neither failed nor expired. -/
theorem Fleet.Single.unspent (h : s.Single) (hsound : s.Sound) {e : Exec} (he : e ∈ s.execs)
    (hl : e.live = true) :
    ∃ a, s.db.attempt? e.id = some a ∧ a.jobID = e.lease.job.id ∧ ¬ a.Spent := by
  obtain ⟨a, ha, hjob, -⟩ := (hsound.execs e he).attempt
  refine ⟨a, ha, hjob, ?_⟩
  rintro (hfailed | hexpired)
  · obtain ⟨r, hr, hid⟩ := h.failed a (Db.mem_of_attempt? ha) hfailed
    rw [Db.attempt?_id ha] at hid
    rw [h.dead hsound hr he hid] at hl
    cases hl
  · exact h.unexpired e he hl a ha hexpired

end Single

end Worker

/-- In every state that is reached without an exception among running processes, live
executions of one job are the same, and a `FailAttempt` the server commits next is of
an attempt without processes. -/
theorem single_execution [Sha256] [Hashlib] (s : Worker.Fleet)
    (hs : Worker.Fleet.Reached Worker.Orderly s) :
    (∀ e ∈ s.execs, ∀ e' ∈ s.execs, e.live = true → e'.live = true →
      e.lease.job.id = e'.lease.job.id → e.id = e'.id) ∧
    ∀ c s' r, s.Step (.serve c) s' → c.op = .rpc .failAttempt r → c.applied s.db = true →
      ∀ e ∈ s.execs, Uuid.parse r.attemptID = some e.id → e.live = false := by
  have hsound := hs.sound
  have hsingle := hs.single
  refine ⟨fun e he e' he' hl hl' hjob => ?_, fun c s' r hstep hop _ e he hid => ?_⟩
  · obtain ⟨a, ha, haj, hua⟩ := hsingle.unspent hsound he hl
    obtain ⟨b, hb, hbj, hub⟩ := hsingle.unspent hsound he' hl'
    have heq := hsound.reach.one_unspent (Db.mem_of_attempt? ha) (Db.mem_of_attempt? hb)
      (by rw [haj, hbj, hjob]) hua hub
    rw [← Db.attempt?_id ha, ← Db.attempt?_id hb, heq]
  · cases hstep with
    | serve hsent _ =>
        have hmem := hsent (by rw [hop]; rfl)
        rw [hop] at hmem
        exact hsingle.dead hsound hmem he hid

namespace Sample

/-- The first command has ended when the upload raises an exception. -/
theorem reached_orderly : Reached Worker.Orderly (state 8
    [executing firstLease .handling false [file], executing secondLease .running true []]
    [firstStartCall.op, firstReportCall.op, firstFailCall.op, secondStartCall.op]) := by
  have hC : ∀ s l, (∀ id, l ≠ .move id .raise) → Worker.Orderly s l := by
    intro s l hl
    cases l with
    | move id a => cases a <;> first | trivial | exact absurd rfl (hl id)
    | _ => trivial
  have hexit := (reached_reported hC).moveOnly (hC _ _ (fun id h => by cases h))
    (@Worker.Move.exit hashlib _ _)
  refine @reached_both _ false hC hexit (fun e he _ hlive => ?_)
  rw [List.mem_singleton.mp he] at hlive
  cases hlive

end Sample

/-- In a run where the first attempt fails after its command has ended, and the second
attempt runs. -/
theorem single_execution_sample :
    Sample.Reached Worker.Orderly (Sample.state 8
      [Sample.executing Sample.firstLease .handling false [Sample.file],
        Sample.executing Sample.secondLease .running true []]
      [Sample.firstStartCall.op, Sample.firstReportCall.op, Sample.firstFailCall.op, Sample.secondStartCall.op]) ∧
    ∀ e ∈ [Sample.executing Sample.firstLease .handling false [Sample.file],
        Sample.executing Sample.secondLease .running true []], e.live = true →
      e.lease.job.id = Sample.firstLease.job.id → e.id = Sample.secondLease.attemptID :=
  ⟨Sample.reached_orderly, fun e he hlive hjob =>
    (@single_execution Sample.digest Sample.hashlib _ Sample.reached_orderly).1
      e he _ (List.mem_cons_of_mem _ List.mem_cons_self) hlive rfl hjob⟩

/-- An upload raises an exception while the command runs. The attempt fails before the
command is killed, and the command of the next attempt is started beside it. -/
theorem failed_attempt_still_runs :
    ∃ s, Sample.Reached (fun _ _ => True) s ∧ ∃ e ∈ s.execs, ∃ e' ∈ s.execs,
      e.live = true ∧ e'.live = true ∧ e.lease.job.id = e'.lease.job.id ∧ e.id ≠ e'.id ∧
      (s.db.attempt? e.id).map AttemptRec.state = some .failed :=
  ⟨_, Sample.reached_both (fun _ _ _ => trivial) (Sample.reached_reported (fun _ _ _ => trivial)) trivial,
    _, List.mem_cons_self, _, List.mem_cons_of_mem _ List.mem_cons_self, rfl, rfl,
    rfl, by decide, by
      have hdb : @exec Sample.digest (Sample.rerun.take 8) Db.empty = @exec Sample.digest
          [Sample.againCall, Sample.secondStartCall] Sample.failedDb := by
        rw [← Sample.failing_exec, ← @exec_append Sample.digest]
        rfl
      unfold Sample.state Worker.Fleet.after
      rw [hdb]
      decide +kernel⟩

end Rungrid
