-- SUMMARY: The server and its workers as one system: the phases of an execution, the requests it sends, and what a lease carries.
import Rungrid.Lifecycle.Checkpoints
import Rungrid.Worker.Launch

/-!
# The server and its workers

A state has the database, the executions of leases that workers have begun, the
requests they have sent and the answers the server has given. A request that was sent
can be executed at any time, in any order and any number of times, or never; an answer
can be received late or never. A transmission that is answered from a receipt repeats
an answer that is already there, so only the executed ones add answers.

An execution is `Worker.execute` from its first line to the end of its `finally`
branch. `live` says that there are processes in the process group of its command; a process
that has left the group is not seen. The clock is not part of a state: that `alive()` turns false before the lease can be reaped, and that the
processes are killed by then, is the guard of a call that expires an attempt.
-/

namespace Rungrid

namespace Worker

/-! ## Executions -/

/-- Where `execute` stands. -/
inductive Phase where
  /-- Before `StartAttempt` has returned. -/
  | starting
  /-- Before `Popen`. -/
  | preparing
  /-- In the loop over `process.poll()`. -/
  | running
  /-- After `kill_group`: the last reports and the result. -/
  | reporting
  /-- In the `except` branch. -/
  | handling
  | finished
deriving DecidableEq, Repr

/-- The execution of a lease. `lost` is the event of that name, `live` says that the
process group of the command has processes, and `files` are the checkpoint files the
command has published. -/
structure Exec where
  lease : Lease
  phase : Phase
  lost : Bool
  live : Bool
  files : List File

/-- The attempt of an execution. -/
def Exec.id (e : Exec) : Uuid := e.lease.attemptID

/-- The request is one that `self.rpc.call(..., lease, ...)` makes for the execution. -/
def Exec.Names (e : Exec) (r : Request) : Prop :=
  r.attemptID = e.lease.attemptID.text ∧ r.leaseToken = e.lease.leaseToken.text

/-- The requests only `execute` makes. -/
def ofExecute : Op → Bool
  | .rpc .startAttempt _ | .rpc .reportProgress _ | .rpc .completeAttempt _ | .rpc .failAttempt _ => true
  | _ => false

/-! ## States -/

structure Fleet where
  db : Db
  execs : List Exec
  sent : List Op
  answers : List (Op × Response)

def Fleet.initial : Fleet := ⟨Db.empty, [], [], []⟩

/-- `alive()`. The lease that an execution relies on has not been reaped. -/
def Fleet.Alive (s : Fleet) (e : Exec) : Prop :=
  e.lost = false ∧ ∀ a, s.db.attempt? e.id = some a → a.state ≠ .expired

/-! ## Steps -/

/-- The kinds of steps of an execution. -/
inductive Act where
  | call
  | started
  | popen
  | publish
  | exit
  | lose
  | kill
  | collect
  | leave
  | raise
  | cleanup
deriving DecidableEq, Repr

/-- One step of the execution `e`: its state after the step, and the requests it sends. -/
inductive Move [Hashlib] (s : Fleet) (e : Exec) : Act → Exec → List Op → Prop where
  | startAttempt {r : Request} : e.phase = .starting → s.Alive e → e.Names r →
      Move s e .call e [.rpc .startAttempt r]
  | started {r : Request} {res : Response} : e.phase = .starting → e.Names r →
      (.rpc .startAttempt r, res) ∈ s.answers → Move s e .started { e with phase := .preparing } []
  | popen {h : Host} {download : String → Option (List UInt8)} {child : Child} :
      e.phase = .preparing → s.Alive e → start h download e.lease.toJson = .ok child →
      Move s e .popen { e with phase := .running, live := true } []
  /-- The command renames a complete checkpoint into its directory. -/
  | publish {f : File} : e.live = true → Move s e .publish { e with files := e.files ++ [f] } []
  /-- The last process of the command's process group ends. -/
  | exit : Move s e .exit { e with live := false } []
  /-- A heartbeat is answered that the lease is gone. -/
  | lose : Move s e .lose { e with lost := true } []
  /-- The heartbeat thread finds the lease gone. -/
  | kill : ¬ s.Alive e → Move s e .kill { e with lost := true, live := false } []
  | report {r : Request} : e.phase = .running ∨ e.phase = .reporting → e.Names r →
      (∀ x ∈ r.artifacts.elems, ∃ kind unique f, upload e.lease kind unique f = some x ∧
        (kind = .checkpoint → f ∈ e.files)) →
      Move s e .call e [.rpc .reportProgress r]
  /-- The process has ended, and `kill_group` ends what is left of its process group. -/
  | collect : e.phase = .running → Move s e .collect { e with phase := .reporting, live := false } []
  | result {m : Method} {r : Request} : e.phase = .reporting → e.Names r → r.artifacts = none →
      m = .completeAttempt ∨ m = .failAttempt → Move s e .call e [.rpc m r]
  /-- A `return`, or the end of the `try` branch. -/
  | leave : (e.phase = .starting ∨ e.phase = .preparing ∨ e.phase = .running) ∧ ¬ s.Alive e ∨
        e.phase = .reporting →
      Move s e .leave { e with phase := .finished, live := false } []
  | raise : e.phase = .starting ∨ e.phase = .preparing ∨ e.phase = .running ∨ e.phase = .reporting →
      Move s e .raise { e with phase := .handling } []
  /-- The `FailAttempt` of the `except` branch. The processes are still there. -/
  | fail {r : Request} : e.phase = .handling → s.Alive e → e.Names r → r.artifacts = none →
      Move s e .call e [.rpc .failAttempt r]
  /-- The `finally` branch. -/
  | cleanup : e.phase = .handling → Move s e .cleanup { e with phase := .finished, live := false } []

/-- The labels of the steps of the system. -/
inductive Label where
  | serve (c : Call)
  | begin (l : Lease)
  | move (id : Uuid) (a : Act)

section Steps

variable [Sha256]

/-- The answer an executed call gives. -/
def answer (c : Call) (db : Db) : List (Op × Response) :=
  match (perform c db).1 with
  | .ok (.response res) => if c.applied db then [(c.op, res)] else []
  | _ => []

/-- One step of the server or of a worker. -/
inductive Fleet.Step [Hashlib] (s : Fleet) : Label → Fleet → Prop where
  /-- A server executes a call. The requests of executions are those that were sent. A
  call that expires an attempt finds its processes killed. -/
  | serve {c : Call} : (ofExecute c.op = true → c.op ∈ s.sent) →
      (∀ e ∈ s.execs, e.live = true → ∀ a, (perform c s.db).2.attempt? e.id = some a →
        a.state ≠ .expired) →
      Fleet.Step s (.serve c)
        { s with db := (perform c s.db).2, answers := s.answers ++ answer c s.db }
  /-- A worker receives a lease and submits it to its pool. -/
  | begin {r : Request} {l : Lease} : (.rpc .leaseJob r, .lease l) ∈ s.answers →
      (∀ e ∈ s.execs, e.id ≠ l.attemptID) →
      Fleet.Step s (.begin l) { s with execs := s.execs ++ [⟨l, .starting, false, false, []⟩] }
  | move {e e' : Exec} {a : Act} {ops : List Op} : e ∈ s.execs → Move s e a e' ops →
      Fleet.Step s (.move e.id a)
        { s with execs := Table.put Exec.id e' s.execs, sent := s.sent ++ ops }

/-- The states reached by steps that meet a condition. -/
inductive Fleet.Reached [Hashlib] (C : Fleet → Label → Prop) : Fleet → Prop where
  | initial : Fleet.Reached C .initial
  | step {s s' : Fleet} {l : Label} : Fleet.Reached C s → C s l → s.Step l s' → Fleet.Reached C s'

end Steps

/-! ## What moves keep -/

/-- The phases after which no process is started. -/
def Phase.past : Phase → Bool
  | .reporting | .handling | .finished => true
  | _ => false

/-- What stays of an execution: its lease, the published files, and that it is past its
command. -/
structure Exec.Later (e e' : Exec) : Prop where
  lease : e'.lease = e.lease
  files : e.files ⊆ e'.files
  past : e.phase.past = true → e.live = false → e'.phase.past = true ∧ e'.live = false

theorem Exec.Later.refl (e : Exec) : e.Later e := ⟨rfl, List.Subset.refl _, fun h h' => ⟨h, h'⟩⟩

theorem Exec.Later.names {e e' : Exec} (h : e.Later e') {r : Request} : e'.Names r ↔ e.Names r := by
  rw [Exec.Names, h.lease]
  rfl

section Moves

variable [Hashlib] {s : Fleet} {e e' : Exec} {a : Act} {ops : List Op}

theorem Move.later (h : Move s e a e' ops) : e.Later e' := by
  cases h with
  | started hphase => exact ⟨rfl, List.Subset.refl _, fun hover => by rw [hphase] at hover; cases hover⟩
  | popen hphase => exact ⟨rfl, List.Subset.refl _, fun hover => by rw [hphase] at hover; cases hover⟩
  | publish => exact ⟨rfl, List.subset_append_left _ _, fun h h' => ⟨h, h'⟩⟩
  | raise => exact ⟨rfl, List.Subset.refl _, fun _ h' => ⟨rfl, h'⟩⟩
  | exit => exact ⟨rfl, List.Subset.refl _, fun h _ => ⟨h, rfl⟩⟩
  | kill => exact ⟨rfl, List.Subset.refl _, fun h _ => ⟨h, rfl⟩⟩
  | lose => exact ⟨rfl, List.Subset.refl _, fun h h' => ⟨h, h'⟩⟩
  | collect => exact ⟨rfl, List.Subset.refl _, fun _ _ => ⟨rfl, rfl⟩⟩
  | leave => exact ⟨rfl, List.Subset.refl _, fun _ _ => ⟨rfl, rfl⟩⟩
  | cleanup => exact ⟨rfl, List.Subset.refl _, fun _ _ => ⟨rfl, rfl⟩⟩
  | _ => exact .refl e

theorem Move.id (h : Move s e a e' ops) : e'.id = e.id := congrArg Lease.attemptID h.later.lease

/-- The requests a move sends, and where `execute` stands then. -/
inductive Exec.Sends (s : Fleet) (e : Exec) (r : Request) : Method → Prop where
  | start : Exec.Sends s e r .startAttempt
  | report : (∀ x ∈ r.artifacts.elems, ∃ kind unique f, upload e.lease kind unique f = some x ∧
      (kind = .checkpoint → f ∈ e.files)) → Exec.Sends s e r .reportProgress
  | result {m : Method} : e.phase = .reporting → r.artifacts = none →
      m = .completeAttempt ∨ m = .failAttempt → Exec.Sends s e r m
  | fail : e.phase = .handling → s.Alive e → r.artifacts = none → Exec.Sends s e r .failAttempt

theorem Move.sends (h : Move s e a e' ops) {op : Op} (hop : op ∈ ops) :
    e' = e ∧ ∃ m r, op = .rpc m r ∧ e.Names r ∧ e.Sends s r m := by
  cases h with
  | startAttempt _ _ hnames =>
      obtain rfl := List.mem_singleton.mp hop
      exact ⟨rfl, _, _, rfl, hnames, .start⟩
  | report _ hnames hall =>
      obtain rfl := List.mem_singleton.mp hop
      exact ⟨rfl, _, _, rfl, hnames, .report hall⟩
  | result hphase hnames hnone hm =>
      obtain rfl := List.mem_singleton.mp hop
      exact ⟨rfl, _, _, rfl, hnames, .result hphase hnone hm⟩
  | fail hphase halive hnames hnone =>
      obtain rfl := List.mem_singleton.mp hop
      exact ⟨rfl, _, _, rfl, hnames, .fail hphase halive hnone⟩
  | _ => cases hop

/-- Every execution has a later state after a move of one of them. -/
theorem Move.put_later (h : Move s e a e' ops) (hkeyed : Table.Keyed Exec.id s.execs) (he : e ∈ s.execs)
    {x : Exec} (hx : x ∈ s.execs) : ∃ y ∈ Table.put Exec.id e' s.execs, x.Later y := by
  by_cases hid : x.id = e'.id
  · obtain rfl := hkeyed.eq_of_key hx he (hid.trans h.id)
    exact ⟨e', Table.mem_put.mpr (.inl ⟨rfl, x, hx, h.id.symm⟩), h.later⟩
  · exact ⟨x, Table.mem_put.mpr (.inr ⟨hx, hid⟩), .refl x⟩

end Moves

/-! ## What a lease carries -/

end Worker

/-- The lease names a stored attempt, and its checkpoint is stored for an earlier attempt
of the job. -/
structure Db.Carries (db : Db) (l : Lease) : Prop where
  attempt : ∃ a, db.attempt? l.attemptID = some a ∧ a.jobID = l.job.id ∧
    a.attemptNumber = l.attemptNumber
  checkpoint : ∀ x, l.checkpoint = some x → ∃ row ∈ db.artifacts, row.artifact = x ∧
    row.kind = .checkpoint ∧ ∃ b, db.attempt? row.attemptID = some b ∧ b.jobID = l.job.id ∧
      b.attemptNumber < l.attemptNumber

theorem Db.Carries.mono {db db' : Db} {l : Lease} (h : db.Carries l) (hg : db.Grows db') :
    db'.Carries l where
  attempt := by
    obtain ⟨a, ha, hjob, hnum⟩ := h.attempt
    obtain ⟨a', ha', hf⟩ := hg.attempt ha
    obtain ⟨-, hjob', hnum', -⟩ := AttemptRec.fixed_eq hf
    exact ⟨a', ha', hjob'.trans hjob, hnum'.trans hnum⟩
  checkpoint x hx := by
    obtain ⟨row, hrow, hxrow, hkind, b, hb, hjob, hnum⟩ := h.checkpoint x hx
    obtain ⟨b', hb', hf⟩ := hg.attempt hb
    obtain ⟨-, hjob', hnum', -⟩ := AttemptRec.fixed_eq hf
    exact ⟨row, hg.artifacts.subset hrow, hxrow, hkind, b', hb', hjob'.trans hjob, hnum' ▸ hnum⟩

theorem Db.mem_newestCheckpoint {db : Db} {job : Uuid} {row : ArtifactRec}
    (h : db.newestCheckpoint job = some row) :
    row ∈ db.artifacts ∧ row.kind = .checkpoint ∧ row.jobID = job := by
  have hmem := (List.mem_insertionSort _).mp (List.mem_of_mem_head? (Option.mem_def.mpr h))
  simpa [Db.artifactsOf, and_assoc] using hmem

theorem Granted.carries {P : Oracle → Prop} {s : Store} {db db' : Db} {r : Request} {cap : Resources}
    {l : Lease} (h : Granted P s db r cap l db') (hscoped : ∀ x ∈ db.artifacts, x.Scoped db) :
    db'.Carries l where
  attempt := by
    obtain ⟨a, _, _, ha, hjob, hnum, -⟩ := h.stored
    exact ⟨a, ha, hjob, hnum⟩
  checkpoint x hx := by
    cases h with
    | @mk j id token o oj oe _ _ _ _ _ _ _ =>
        obtain ⟨row, hrow, rfl⟩ := Option.map_eq_some_iff.mp hx
        obtain ⟨hmem, hkind, hjob⟩ := Db.mem_newestCheckpoint hrow
        obtain ⟨b, _, hb, -, hbjob, -⟩ := hscoped row hmem
        refine ⟨row, hmem, rfl, hkind, b, Table.find_append_of_some _ hb, hbjob.trans hjob, ?_⟩
        exact Db.lt_nextNumber (Db.mem_of_attempt? hb) (hbjob.trans hjob)

namespace Worker

/-! ## The invariant of the system -/

section Invariant

variable [Sha256]

theorem mem_answer {c : Call} {db : Db} {op : Op} {res : Response} :
    (op, res) ∈ answer c db ↔
      op = c.op ∧ (perform c db).1 = .ok (.response res) ∧ c.applied db = true := by
  unfold answer
  split
  · rename_i res' hres
    rw [hres]
    split
    · rename_i happ
      simp only [List.mem_singleton, Prod.mk.injEq, Except.ok.injEq, Result.response.injEq, happ,
        and_true]
      exact and_congr_right (fun _ => eq_comm)
    · rename_i happ
      simp [happ]
  · rename_i hno
    simp only [List.not_mem_nil, false_iff, not_and]
    intro _ hres
    exact absurd hres (hno res)

/-- An applied RPC is answered. -/
theorem answer_of_applied {c : Call} {db : Db} (hdb : db.Sound) {m : Method} {r : Request}
    (hop : c.op = .rpc m r) (happ : c.applied db = true) : ∃ res, (c.op, res) ∈ answer c db := by
  obtain ⟨res, hres, -⟩ := Call.applied_ok happ
  obtain ⟨_, res', -, -, -, rfl⟩ := perform_leaves_receipt hdb (by rw [hop]; rfl)
    (Prod.ext hres rfl : perform c db = (.ok res, (perform c db).2))
  exact ⟨res', mem_answer.mpr ⟨rfl, hres, happ⟩⟩

/-- Answered and begun leases are carried by the database, reported artifacts are the
uploads of executions, and stored ones were reported. -/
structure Fleet.Sound [Hashlib] (s : Fleet) : Prop where
  reach : Reachable s.db
  keyed : Table.Keyed Exec.id s.execs
  leases : ∀ r l, (.rpc .leaseJob r, .lease l) ∈ s.answers → s.db.Carries l
  execs : ∀ e ∈ s.execs, s.db.Carries e.lease
  results : ∀ m r, .rpc m r ∈ s.sent → m = .completeAttempt ∨ m = .failAttempt → r.artifacts = none
  reports : ∀ r, .rpc .reportProgress r ∈ s.sent → ∃ e ∈ s.execs, e.Names r ∧
    ∀ x ∈ r.artifacts.elems, ∃ kind unique f, upload e.lease kind unique f = some x ∧
      (kind = .checkpoint → f ∈ e.files)
  rows : ∀ row ∈ s.db.artifacts, ∃ r res, .rpc .reportProgress r ∈ s.sent ∧
    (.rpc .reportProgress r, res) ∈ s.answers ∧ row.artifact ∈ r.artifacts.elems ∧
    Uuid.parse r.attemptID = some row.attemptID

variable [Hashlib] {s s' : Fleet} {C : Fleet → Label → Prop}

theorem Fleet.sound_initial : Fleet.initial.Sound where
  reach := ⟨[], rfl⟩
  keyed := List.nodup_nil
  leases := by intro r l h; cases h
  execs := by intro e h; cases h
  results := by intro m r h; cases h
  reports := by intro r h; cases h
  rows := by intro row h; cases h

omit [Hashlib] in
/-- A lease the server answers with is carried by the database it leaves. -/
theorem answer_carries {c : Call} {db : Db} {r : Request} {l : Lease} (h : Reachable db)
    (hmem : (.rpc .leaseJob r, .lease l) ∈ answer c db) : (perform c db).2.Carries l := by
  obtain ⟨hop, hres, happ⟩ := mem_answer.mp hmem
  obtain ⟨_, -, hfresh⟩ := Call.applied_ok happ
  have hnone : db.request? (Store.rpcScope .leaseJob r) r.requestID = none := by
    simpa [Op.fresh, ← hop, Op.key] using hfresh
  obtain ⟨w, o, rs, rs', mid, -, -, hgrant, heq⟩ := perform_lease (P := fun _ => True) hop.symm
    (fun _ => trivial) h.logged.1 hnone
    (Prod.ext hres rfl : perform c db = (.ok (.response (.lease l)), (perform c db).2))
  have hcarries := hgrant.carries (fun x hx => h.scoped x hx)
  rw [heq]
  exact ⟨hcarries.attempt, hcarries.checkpoint⟩

omit [Hashlib] in
/-- An artifact row that a call adds was reported by it. -/
theorem perform_rows {c : Call} {db : Db} (h : Reachable db) {row : ArtifactRec}
    (hrow : row ∈ (perform c db).2.artifacts) :
    row ∈ db.artifacts ∨ ∃ m r, c.op = .rpc m r ∧ m.reports = true ∧ c.applied db = true ∧
      row.artifact ∈ r.artifacts.elems ∧ Uuid.parse r.attemptID = some row.attemptID := by
  have hdb := h.logged.1
  cases happ : c.applied db with
  | false =>
      rw [(perform_unapplied hdb happ).1] at hrow
      exact .inl hrow
  | true =>
      by_cases hreport : ∃ m r, c.op = .rpc m r ∧ m.reports = true
      · obtain ⟨m, r, hop, hm⟩ := hreport
        obtain ⟨res, hres, hfresh⟩ := Call.applied_ok happ
        have hnone : db.request? (Store.rpcScope m r) r.requestID = none := by
          simpa [Op.fresh, hop, Op.key] using hfresh
        obtain ⟨a, j, new, hf, -, hart, hnew⟩ := perform_reports hop hm hdb hnone
          (Prod.ext hres rfl : perform c db = (.ok res, (perform c db).2))
        rw [hart] at hrow
        rcases List.mem_append.mp hrow with hold | hadd
        · exact .inl hold
        · refine .inr ⟨m, r, hop, hm, rfl, ?_, ?_⟩
          · have hmem : row.artifact ∈ new.map ArtifactRec.artifact := List.mem_map_of_mem hadd
            rw [hnew.entries] at hmem
            exact (Table.fresh_sublist _ _).subset hmem
          · rw [(hnew.owner row hadd).2]
            exact hf.named
      · rw [perform_artifacts_eq hdb] at hrow
        · exact .inl hrow
        · intro m r hop
          rw [Bool.eq_false_iff]
          exact fun hm => hreport ⟨m, r, hop, hm⟩

theorem Fleet.Sound.serve {c : Call} (h : s.Sound) (hsent : ofExecute c.op = true → c.op ∈ s.sent) :
    Fleet.Sound { s with db := (perform c s.db).2, answers := s.answers ++ answer c s.db } := by
  have hgrows := (perform_settles h.reach c).grows
  refine ⟨h.reach.perform c, h.keyed, fun r l hmem => ?_, fun e he => (h.execs e he).mono hgrows,
    h.results, h.reports, fun row hrow => ?_⟩
  · rcases List.mem_append.mp hmem with hmem | hmem
    · exact (h.leases r l hmem).mono hgrows
    · exact answer_carries h.reach hmem
  · rcases perform_rows h.reach hrow with hold | ⟨m, r, hop, hm, happ, hx, hid⟩
    · obtain ⟨r, res, hr, hans, hx⟩ := h.rows row hold
      exact ⟨r, res, hr, List.mem_append_left _ hans, hx⟩
    · have hmem : c.op ∈ s.sent := hsent (by rw [hop]; cases m <;> first | rfl | cases hm)
      have hprogress : m = .reportProgress := by
        by_contra hne
        -- The results carry no artifacts.
        have hresult : m = .completeAttempt ∨ m = .failAttempt := by
          cases m <;> first | exact absurd rfl hne | exact .inl rfl | exact .inr rfl | cases hm
        rw [h.results m r (hop ▸ hmem) hresult] at hx
        cases hx
      subst hprogress
      obtain ⟨res, hans⟩ := answer_of_applied h.reach.logged.1 hop happ
      rw [hop] at hmem hans
      exact ⟨r, res, hmem, List.mem_append_right _ hans, hx, hid⟩

theorem Fleet.Sound.begin {r : Request} {l : Lease} (h : s.Sound)
    (hans : (.rpc .leaseJob r, .lease l) ∈ s.answers) (hnew : ∀ e ∈ s.execs, e.id ≠ l.attemptID) :
    Fleet.Sound { s with execs := s.execs ++ [⟨l, .starting, false, false, []⟩] } := by
  refine { h with keyed := h.keyed.append (Table.find_eq_none.mpr hnew), execs := ?_, reports := ?_ }
  · intro e he
    rcases List.mem_append.mp he with he | he
    · exact h.execs e he
    · rw [List.mem_singleton.mp he]
      exact h.leases r l hans
  · intro r hr
    obtain ⟨e, he, hreport⟩ := h.reports r hr
    exact ⟨e, List.mem_append_left _ he, hreport⟩

theorem Fleet.Sound.move {e e' : Exec} {a : Act} {ops : List Op} (h : s.Sound) (he : e ∈ s.execs)
    (hmove : Move s e a e' ops) :
    Fleet.Sound { s with execs := Table.put Exec.id e' s.execs, sent := s.sent ++ ops } := by
  have hreported : ∀ {r : Request} {x : Exec}, x ∈ s.execs → x.Names r →
      (∀ y ∈ r.artifacts.elems, ∃ kind unique f, upload x.lease kind unique f = some y ∧
        (kind = .checkpoint → f ∈ x.files)) →
      ∃ x' ∈ Table.put Exec.id e' s.execs, x'.Names r ∧
        ∀ y ∈ r.artifacts.elems, ∃ kind unique f, upload x'.lease kind unique f = some y ∧
          (kind = .checkpoint → f ∈ x'.files) := by
    intro r x hx hnames hall
    obtain ⟨x', hx', hlater⟩ := hmove.put_later h.keyed he hx
    refine ⟨x', hx', hlater.names.mpr hnames, fun y hy => ?_⟩
    obtain ⟨kind, unique, f, hup, hf⟩ := hall y hy
    exact ⟨kind, unique, f, by rw [hlater.lease]; exact hup, fun hk => hlater.files (hf hk)⟩
  refine { h with keyed := ?_, execs := ?_, results := ?_, reports := ?_, rows := ?_ }
  · exact h.keyed.put (fun x _ hx => hx)
  · intro x hx
    rcases Table.mem_put.mp hx with ⟨rfl, -⟩ | ⟨hx, -⟩
    · rw [hmove.later.lease]
      exact h.execs e he
    · exact h.execs x hx
  · intro m r hmem hm
    rcases List.mem_append.mp hmem with hold | hnew
    · exact h.results m r hold hm
    · obtain ⟨-, m', r', heq, -, hsends⟩ := hmove.sends hnew
      cases heq
      cases hsends with
      | result _ hnone _ => exact hnone
      | fail _ _ hnone => exact hnone
      | _ => rcases hm with hm | hm <;> cases hm
  · intro r hmem
    rcases List.mem_append.mp hmem with hold | hnew
    · obtain ⟨x, hx, hnames, hall⟩ := h.reports r hold
      exact hreported hx hnames hall
    · obtain ⟨-, m', r', heq, hnames, hsends⟩ := hmove.sends hnew
      cases heq
      cases hsends with
      | report hall => exact hreported he hnames hall
      | result _ _ hm => rcases hm with hm | hm <;> cases hm
  · intro row hrow
    obtain ⟨r, res, hr, hx⟩ := h.rows row hrow
    exact ⟨r, res, List.mem_append_left _ hr, hx⟩

/-- The invariant holds in every state of the system. -/
theorem Fleet.Reached.sound (h : Fleet.Reached C s) : s.Sound := by
  induction h with
  | initial => exact Fleet.sound_initial
  | step _ _ hstep ih =>
      cases hstep with
      | serve hsent _ => exact ih.serve hsent
      | begin hans hnew => exact ih.begin hans hnew
      | move he hmove => exact ih.move he hmove

end Invariant

/-! ## Runs given by the calls of the server -/

section After

variable [Sha256] [Hashlib] {C : Fleet → Label → Prop} {cs : List Call} {execs : List Exec} {sent : List Op}

/-- The state with given executions and requests after the server has executed `cs`. -/
def Fleet.after (cs : List Call) (execs : List Exec) (sent : List Op) : Fleet :=
  ⟨exec cs Db.empty, execs, sent,
    (Machine.trace perform cs Db.empty).flatMap (fun x => answer x.1 x.2)⟩

omit [Hashlib] in
theorem Fleet.after_concat (c : Call) : Fleet.after (cs ++ [c]) execs sent
    = ⟨(perform c (exec cs Db.empty)).2, execs, sent,
        (Fleet.after cs execs sent).answers ++ answer c (exec cs Db.empty)⟩ := by
  simp only [Fleet.after, exec_concat, Machine.trace_append, List.flatMap_append]
  simp [Machine.trace, exec]

omit [Hashlib] in
theorem Fleet.mem_after_concat {c : Call} {res : Response}
    (hres : (perform c (exec cs Db.empty)).1 = .ok (.response res))
    (hfresh : c.op.fresh (exec cs Db.empty) = true) :
    (c.op, res) ∈ (Fleet.after (cs ++ [c]) execs sent).answers := by
  rw [Fleet.after_concat]
  refine List.mem_append_right _ (mem_answer.mpr ⟨rfl, hres, ?_⟩)
  rw [Call.applied, hres, hfresh]
  rfl

/-- A call that leaves no expired attempt can be executed. -/
theorem Fleet.Reached.after_serve {c : Call} (h : Fleet.Reached C (.after cs execs sent))
    (hC : C (.after cs execs sent) (.serve c)) (hsent : ofExecute c.op = true → c.op ∈ sent)
    (hexp : ∀ a ∈ (exec (cs ++ [c]) Db.empty).attempts, a.state ≠ .expired) :
    Fleet.Reached C (.after (cs ++ [c]) execs sent) := by
  rw [Fleet.after_concat]
  refine .step h hC (.serve hsent (fun _ _ _ a ha => hexp a ?_))
  rw [exec_concat]
  exact Db.mem_of_attempt? ha

omit [Hashlib] in
theorem unexpired_of_append {ds : List Call}
    (h : ∀ a ∈ (exec (cs ++ ds) Db.empty).attempts, a.state ≠ .expired) :
    ∀ a ∈ (exec cs Db.empty).attempts, a.state ≠ .expired := by
  intro a ha hstate
  have hreach : Reachable (exec cs Db.empty) := ⟨cs, rfl⟩
  have hfind := hreach.logged.1.wf.attempts.find_of_mem ha
  have hlater := (exec_settles hreach ds).attempt hfind (by rw [hstate]; rfl)
  rw [← exec_append] at hlater
  exact h a (Db.mem_of_attempt? hlater) hstate

/-- A move of the last execution. -/
theorem Fleet.Reached.after_move {e e' : Exec} {a : Act} {ops : List Op}
    (h : Fleet.Reached C (.after cs (execs ++ [e]) sent))
    (hC : C (.after cs (execs ++ [e]) sent) (.move e.id a))
    (hmove : Move (.after cs (execs ++ [e]) sent) e a e' ops) (hnew : ∀ x ∈ execs, x.id ≠ e.id) :
    Fleet.Reached C (.after cs (execs ++ [e']) (sent ++ ops)) := by
  have hput : Table.put Exec.id e' (execs ++ [e]) = execs ++ [e'] := by
    have hothers : execs.map (fun x => if x.id = e.id then e' else x) = execs.map id :=
      List.map_congr_left (fun x hx => if_neg (hnew x hx))
    simpa [Table.put, hmove.id] using hothers
  exact hput ▸ .step h hC (.move (List.mem_append_right _ List.mem_cons_self) hmove)

/-- The execution of a lease begins. -/
theorem Fleet.Reached.after_begin {r : Request} {l : Lease} (h : Fleet.Reached C (.after cs execs sent))
    (hC : C (.after cs execs sent) (.begin l))
    (hlease : (.rpc .leaseJob r, .lease l) ∈ (Fleet.after cs execs sent).answers)
    (hnew : ∀ x ∈ execs, x.id ≠ l.attemptID) :
    Fleet.Reached C (.after cs (execs ++ [⟨l, .starting, false, false, []⟩]) sent) :=
  .step h hC (.begin hlease hnew)

/-- It is started and runs its command, if no attempt expires. -/
theorem Fleet.Reached.after_popen {r : Request} {l : Lease} {c : Call} {host : Host}
    {download : String → Option (List UInt8)}
    (h : Fleet.Reached C (.after cs (execs ++ [⟨l, .starting, false, false, []⟩]) sent))
    (hC : ∀ s l, (∀ id, l ≠ .move id .raise) → C s l) (hnew : ∀ x ∈ execs, x.id ≠ l.attemptID)
    (hop : c.op = .rpc .startAttempt r) (hnames : Exec.Names ⟨l, .starting, false, false, []⟩ r)
    (hres : (perform c (exec cs Db.empty)).1 = .ok (.response .accepted))
    (hfresh : c.op.fresh (exec cs Db.empty) = true)
    (hexp : ∀ a ∈ (exec (cs ++ [c]) Db.empty).attempts, a.state ≠ .expired)
    (hok : (start host download l.toJson).toBool = true) :
    Fleet.Reached C (.after (cs ++ [c]) (execs ++ [⟨l, .running, false, true, []⟩]) (sent ++ [c.op])) := by
  have hmove : ∀ s id a, a ≠ .raise → C s (.move id a) := fun s id a ha =>
    hC s _ (fun id h => ha (by cases h; rfl))
  have hasked := h.after_move (hmove _ _ .call (by decide)) (.startAttempt rfl
    ⟨rfl, fun a ha => unexpired_of_append hexp a (Db.mem_of_attempt? ha)⟩ hnames) hnew
  rw [← hop] at hasked
  have hserved := hasked.after_serve (hC _ (.serve c) (fun id h => by cases h)) (fun _ => by simp) hexp
  have hans : (c.op, .accepted) ∈ (Fleet.after (cs ++ [c]) (execs ++ [⟨l, .starting, false, false, []⟩])
      (sent ++ [c.op])).answers := Fleet.mem_after_concat hres hfresh
  rw [hop] at hans
  have hstarted := hserved.after_move (hmove _ _ .started (by decide))
    (.started rfl hnames (by rw [hop]; exact hans)) hnew
  cases hstart : start host download l.toJson with
  | error e => rw [hstart] at hok; cases hok
  | ok child =>
      have hrunning := hstarted.after_move (hmove _ _ .popen (by decide))
        (.popen rfl ⟨rfl, fun a ha => hexp a (Db.mem_of_attempt? ha)⟩ hstart) hnew
      simpa using hrunning

end After

end Worker

/-! ## A run with an exception -/

namespace Sample

/-- A job whose command can be started. -/
def training : Job := { job with environment := some GoMap.empty }

/-- The checkpoint file the command publishes. -/
def file : Worker.File := fileOf "step.json" [1] (by decide)

def firstLease : Lease := { lease with job := { lease.job with definition := training } }

def fileEntry : Artifact :=
  @Worker.entryOf hashlib firstLease .checkpoint (Uuid.ID 7) "step.json" [1]

theorem file_uploaded : @Worker.upload hashlib firstLease .checkpoint (Uuid.ID 7) file = some fileEntry :=
  (@Worker.upload_eq_some hashlib _ _ _ _ _).mpr ⟨"step.json", Worker.encode_str _, rfl⟩

def secondLease : Lease :=
  ⟨{ firstLease.job with updatedAt := 6080 }, Uuid.ID 7006, 2, Uuid.ID 7007, 5007080, 7083, some fileEntry⟩

def secondRequest : Request :=
  { register with
    requestID := "7"
    attemptID := (Uuid.ID 7006).text
    leaseToken := (Uuid.ID 7007).text }

def firstReport : Request := { request "4" with artifacts := some [fileEntry] }

def firstStartCall : Call := ⟨server, .rpc .startAttempt (request "3"), oracle 4000⟩

def firstReportCall : Call := ⟨server, .rpc .reportProgress firstReport, oracle 5000⟩

def firstFailCall : Call := ⟨server, .rpc .failAttempt (request "5"), oracle 6000⟩

def secondStartCall : Call := ⟨server, .rpc .startAttempt secondRequest, oracle 8000⟩

/-- The job is leased and started, reports a checkpoint and fails. -/
def failing : List Call :=
  [⟨server, .submit [training], oracle 1000⟩, registerCall, leaseCall, firstStartCall, firstReportCall,
    firstFailCall]

/-- It is leased and started again. -/
def rerun : List Call := failing ++ [againCall, secondStartCall]

/-- What `failing` leaves. -/
def failedDb : Db where
  jobs := [{ training.newRow jobID (oracle 1000 2) with state := .queued, updatedAt := 6080 }]
  workers := [{ worker with lastHeartbeatAt := 6030 }]
  attempts := [{ attempt with
    state := .failed
    startedAt := some 4070
    finishedAt := some 6070
    exitCode := some 0
    failureReason := some "" }]
  artifacts := [⟨Uuid.ID 5008, jobID, attemptID, fileEntry.objectKey, fileEntry.contentType, 1,
    fileEntry.checksum, .checkpoint, 5090⟩]
  events := [⟨1, jobID, none, .submitted, .empty, 1040⟩,
    ⟨2, jobID, some attemptID, .leased, .leased "2" "w" 1, 3110⟩,
    ⟨3, jobID, some attemptID, .method .startAttempt, (request "3").report, 4090⟩,
    ⟨4, jobID, some attemptID, .method .reportProgress, (request "4").report, 5100⟩,
    ⟨5, jobID, some attemptID, .method .failAttempt, (request "5").report, 6090⟩]
  requests := [⟨"rpc:RegisterWorker:w", "1", "", some .registered, 2000⟩,
    ⟨"rpc:LeaseJob:w", "2", "", some (.lease firstLease), 3000⟩,
    ⟨"rpc:StartAttempt:w", "3", "", some .accepted, 4000⟩,
    ⟨"rpc:ReportProgress:w", "4", "", some .accepted, 5000⟩,
    ⟨"rpc:FailAttempt:w", "5", "", some .accepted, 6000⟩]

/-- What it leaves after the lease. -/
def firstLeasedDb : Db :=
  { leasedDb with
    jobs := [{ jobRow with definition := training }]
    requests := failedDb.requests.take 2 }

theorem failing_lease :
    @perform digest leaseCall (@exec digest (failing.take 2) Db.empty)
        = (.ok (.response (.lease firstLease)), firstLeasedDb) ∧
      leaseCall.op.fresh (@exec digest (failing.take 2) Db.empty) = true := by
  decide +kernel

theorem failing_leased : @exec digest (failing.take 3) Db.empty = firstLeasedDb := by
  have hlast : failing.take 3 = failing.take 2 ++ [leaseCall] := rfl
  rw [hlast, @exec_concat digest, failing_lease.1]

theorem failing_exec : @exec digest failing Db.empty = failedDb := by
  have hsplit : failing = failing.take 3 ++ [firstStartCall, firstReportCall, firstFailCall] := rfl
  rw [hsplit, @exec_append digest, failing_leased]
  decide +kernel

/-- The states of the run, with the number of calls executed. -/
def state (k : Nat) (execs : List Worker.Exec) (sent : List Op) : Worker.Fleet :=
  @Worker.Fleet.after digest (rerun.take k) execs sent

/-- An execution in a phase. -/
def executing (l : Lease) (phase : Worker.Phase) (live : Bool) (files : List Worker.File) : Worker.Exec :=
  ⟨l, phase, false, live, files⟩

/-- What the object store has. -/
def download (key : String) : Option (List UInt8) := if key = fileEntry.objectKey then some [1] else none

theorem rerun_unexpired (k : Nat) :
    ∀ a ∈ (@exec digest (rerun.take k) Db.empty).attempts, a.state ≠ .expired := by
  refine @Worker.unexpired_of_append digest _ (rerun.drop k) ?_
  rw [List.take_append_drop, rerun, @exec_append digest, failing_exec]
  decide +kernel

theorem state_alive (k : Nat) (execs : List Worker.Exec) (sent : List Op) {e : Worker.Exec}
    (he : e.lost = false) : (state k execs sent).Alive e :=
  ⟨he, fun a ha => rerun_unexpired k a (Db.mem_of_attempt? ha)⟩

/-- The call after the first `k` is new and gets the answer. -/
def Answers (k : Nat) (c : Call) (res : Response) : Prop :=
  (@perform digest c (@exec digest (rerun.take k) Db.empty)).1 = .ok (.response res) ∧
    c.op.fresh (@exec digest (rerun.take k) Db.empty) = true

instance {k : Nat} {c : Call} {res : Response} : Decidable (Answers k c res) :=
  inferInstanceAs (Decidable (_ ∧ _))

theorem attempts_distinct : firstLease.attemptID ≠ secondLease.attemptID := by decide

theorem rerun_three : @exec digest (rerun.take 3) Db.empty = firstLeasedDb := failing_leased

theorem rerun_six : @exec digest (rerun.take 6) Db.empty = failedDb := failing_exec

theorem rerun_seven :
    @exec digest (rerun.take 7) Db.empty = (@perform digest againCall failedDb).2 := by
  rw [← failing_exec, ← @exec_concat digest]
  rfl

section Reached

variable {C : Worker.Fleet → Worker.Label → Prop} {execs : List Worker.Exec} {sent : List Op}

abbrev Reached (C : Worker.Fleet → Worker.Label → Prop) (s : Worker.Fleet) : Prop :=
  @Worker.Fleet.Reached digest hashlib C s

theorem Reached.serve {k : Nat} (c : Call) (h : Reached C (state k execs sent))
    (hC : C (state k execs sent) (.serve c)) (hsent : Worker.ofExecute c.op = true → c.op ∈ sent)
    (hc : rerun.take (k + 1) = rerun.take k ++ [c]) : Reached C (state (k + 1) execs sent) := by
  have hexp := rerun_unexpired (k + 1)
  unfold state
  rw [hc] at hexp ⊢
  exact @Worker.Fleet.Reached.after_serve digest hashlib C _ _ _ _ h hC hsent hexp

/-- The call after the first `k` gives a lease, and its execution begins. -/
theorem Reached.begin {k : Nat} {c : Call} {r : Request} {l : Lease}
    (h : Reached C (state (k + 1) execs sent)) (hC : C (state (k + 1) execs sent) (.begin l))
    (hc : rerun.take (k + 1) = rerun.take k ++ [c]) (hop : c.op = .rpc .leaseJob r)
    (hans : Answers k c (.lease l)) (hnew : ∀ x ∈ execs, x.id ≠ l.attemptID) :
    Reached C (state (k + 1) (execs ++ [executing l .starting false []]) sent) := by
  have hans := @Worker.Fleet.mem_after_concat digest _ execs sent _ _ hans.1 hans.2
  rw [hop, ← hc] at hans
  exact @Worker.Fleet.Reached.after_begin digest hashlib C _ _ _ _ _ h hC hans hnew

/-- The call after the first `k` starts it. -/
theorem Reached.popen {k : Nat} {c : Call} {r : Request} {l : Lease}
    (h : Reached C (state k (execs ++ [executing l .starting false []]) sent))
    (hC : ∀ s l, (∀ id, l ≠ .move id .raise) → C s l)
    (hc : rerun.take (k + 1) = rerun.take k ++ [c]) (hop : c.op = .rpc .startAttempt r)
    (hnames : (executing l .starting false []).Names r)
    (hans : Answers k c .accepted)
    (hok : (@Worker.start hashlib host download l.toJson).toBool = true)
    (hnew : ∀ x ∈ execs, x.id ≠ l.attemptID) :
    Reached C (state (k + 1) (execs ++ [executing l .running true []]) (sent ++ [c.op])) := by
  have hexp := rerun_unexpired (k + 1)
  unfold state
  rw [hc] at hexp ⊢
  exact @Worker.Fleet.Reached.after_popen digest hashlib C _ _ _ _ _ _ _ _ h hC hnew hop hnames
    hans.1 hans.2 hexp hok

/-- The first command runs. -/
theorem reached_first (hC : ∀ s l, (∀ id, l ≠ .move id .raise) → C s l) :
    Reached C (state 4 [executing firstLease .running true []] [firstStartCall.op]) := by
  have hserve : ∀ s c, C s (.serve c) := fun s c => hC s _ (fun id h => by cases h)
  have h0 : Reached C (state 0 [] []) := @Worker.Fleet.Reached.initial digest hashlib C
  have h1 := h0.serve ⟨server, .submit [training], oracle 1000⟩ (hserve _ _) (fun h => absurd h (by decide)) rfl
  have h2 := h1.serve registerCall (hserve _ _) (fun h => absurd h (by decide)) rfl
  have h3 := h2.serve leaseCall (hserve _ _) (fun h => absurd h (by decide)) rfl
  have hlease : Answers 2 leaseCall (.lease firstLease) :=
    ⟨congrArg Prod.fst failing_lease.1, failing_lease.2⟩
  have hstart : Answers 3 firstStartCall .accepted := by
    rw [Answers, rerun_three]
    decide +kernel
  have hbegun := h3.begin (hC _ _ (fun id h => by cases h)) rfl rfl hlease (by simp)
  exact hbegun.popen hC rfl rfl ⟨rfl, rfl⟩ hstart (by decide +kernel) (by simp)

theorem Reached.moveOnly {k : Nat} {e e' : Worker.Exec} {a : Worker.Act} {ops : List Op}
    (h : Reached C (state k [e] sent)) (hC : C (state k [e] sent) (.move e.id a))
    (hmove : @Worker.Move hashlib (state k [e] sent) e a e' ops) :
    Reached C (state k [e'] (sent ++ ops)) :=
  @Worker.Fleet.Reached.after_move digest hashlib C _ [] _ _ _ _ _ h hC hmove (by simp)

/-- The command publishes a checkpoint, which is reported. -/
theorem reached_reported (hC : ∀ s l, (∀ id, l ≠ .move id .raise) → C s l) : Reached C (state 5
    [executing firstLease .running true [file]] [firstStartCall.op, firstReportCall.op]) := by
  have hmoved : ∀ s id a, a ≠ .raise → C s (.move id a) :=
    fun s id a ha => hC s _ (fun id h => ha (Worker.Label.move.inj h).2)
  have hpublished := (reached_first hC).moveOnly (hmoved _ _ _ (by decide))
    (@Worker.Move.publish hashlib _ _ file rfl)
  have hsent := hpublished.moveOnly (a := .call) (hmoved _ _ _ (by decide)) (@Worker.Move.report hashlib _ _
    firstReport (.inl rfl) ⟨rfl, rfl⟩ (fun x hx => ⟨.checkpoint, Uuid.ID 7, file,
      List.mem_singleton.mp hx ▸ file_uploaded, fun _ => List.mem_cons_self⟩))
  exact hsent.serve firstReportCall (hC _ _ (fun id h => by cases h)) (fun _ => by simp [firstReportCall]) rfl

/-- An upload raises an exception, the attempt fails, and the job is leased again. The
command may still run. -/
theorem reached_again {live : Bool} (hC : ∀ s l, (∀ id, l ≠ .move id .raise) → C s l)
    (h : Reached C (state 5 [executing firstLease .running live [file]] [firstStartCall.op, firstReportCall.op]))
    (hraise : C (state 5 [executing firstLease .running live [file]] [firstStartCall.op, firstReportCall.op])
      (.move attemptID .raise)) :
    Reached C (state 7
      [executing firstLease .handling live [file], executing secondLease .starting false []]
      [firstStartCall.op, firstReportCall.op, firstFailCall.op]) := by
  have hraised := h.moveOnly hraise (@Worker.Move.raise hashlib _ _ (.inr (.inr (.inl rfl))))
  have hsent := hraised.moveOnly (a := .call) (hC _ _ (fun id h => by cases h)) (@Worker.Move.fail hashlib _ _
    (request "5") rfl (state_alive 5 _ _ rfl) ⟨rfl, rfl⟩ rfl)
  have h6 := hsent.serve firstFailCall (hC _ _ (fun id h => by cases h))
    (fun _ => by simp [firstFailCall]) rfl
  have h7 := h6.serve againCall (hC _ _ (fun id h => by cases h)) (fun h => absurd h (by decide)) rfl
  have hlease : Answers 6 againCall (.lease secondLease) := by
    rw [Answers, rerun_six]
    decide +kernel
  exact h7.begin (hC _ _ (fun id h => by cases h)) rfl rfl hlease
    (List.forall_mem_singleton.mpr attempts_distinct)

/-- The second command runs. -/
theorem reached_both {live : Bool} (hC : ∀ s l, (∀ id, l ≠ .move id .raise) → C s l)
    (h : Reached C (state 5 [executing firstLease .running live [file]] [firstStartCall.op, firstReportCall.op]))
    (hraise : C (state 5 [executing firstLease .running live [file]] [firstStartCall.op, firstReportCall.op])
      (.move attemptID .raise)) :
    Reached C (state 8
      [executing firstLease .handling live [file], executing secondLease .running true []]
      [firstStartCall.op, firstReportCall.op, firstFailCall.op, secondStartCall.op]) := by
  have hstart : Answers 7 secondStartCall .accepted := by
    rw [Answers, rerun_seven]
    decide +kernel
  exact @Reached.popen _ [executing firstLease .handling live [file]] _ _ _ _ _ (reached_again hC h hraise)
    hC rfl rfl ⟨rfl, rfl⟩ hstart (by decide +kernel) (List.forall_mem_singleton.mpr attempts_distinct)

end Reached

end Sample

end Rungrid
