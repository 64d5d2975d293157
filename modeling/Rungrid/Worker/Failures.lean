-- SUMMARY: The failure report of `execute`: which texts of an exception the server records at once.
import Rungrid.Worker.Payloads

/-!
# Failure reports

The `except` branch of `Worker.execute` sends the first 8192 code points of the text of
the exception, and the server takes a reason of at most 8192 bytes without U+0000. A
report that is rejected is not repeated: `RPC.call` raises, and the exception is ignored.
-/

namespace Rungrid

namespace Worker

open Dumps (Str)

/-- `exit_code=-1, reason=str(exc)[:8192]`. -/
def failure (text : Str) : Payload := .result (-1) (text.take 8192)

/-- The text as the server reads it. -/
def reason (text : Str) : String := String.ofList (Dumps.joined (text.take 8192))

/-- The texts whose failure can be recorded: what is left of them takes at most 8192 bytes
and does not hold U+0000. -/
def Deliverable (text : Str) : Prop :=
  Dumps.size (text.take 8192) ≤ 8192 ∧ ∀ c ∈ text.take 8192, c.val ≠ 0

/-- The attempt of the lease is running for the worker, and every reading of the clock is
before the end of its lease and its deadline. -/
structure Running (db : Db) (o : Nat → Oracle) (x : RPC) (l : Lease) (a : AttemptRec) : Prop where
  worker : ∃ w, db.worker? x.workerID = some w ∧ w.sessionID = x.sessionID.text
  attempt : db.attempt? l.attemptID = some a
  owner : a.workerID = x.workerID
  token : a.leaseToken = l.leaseToken
  state : a.state = .running
  live : ∀ n i, (o n).clock i < a.leaseExpiresAt ∧ (o n).clock i < a.deadlineAt

theorem failure_fits (text : Str) : (failure text).Fits := by
  constructor <;> decide

theorem failure_reportOk (text : Str) : Store.reportOk (failure text).request = true ↔
    Dumps.size (text.take 8192) ≤ 8192 := by
  simp [Store.reportOk, failure, Payload.request, Grpc.zero, GoSlice.elems, Dumps.utf8ByteSize_joined]

theorem failure_clean {x : RPC} (hid : Text.hasNul x.workerID = false) (l : Lease) (id : Uuid)
    (text : Str) : (x.request l id (failure text)).clean .failAttempt = true ↔
      ∀ c ∈ text.take 8192, c.val ≠ 0 := by
  have hreport : (x.request l id (failure text)).report.hasNul = Text.hasNul (reason text) := by
    have hrequest : Text.hasNul id.text = false := id.text_admitted.2.2
    simp [RPC.request, RPC.envelope, Grpc.Envelope.fill, Request.report, EventPayload.hasNul, failure,
      Payload.request, Grpc.zero, GoSlice.elems, hid, hrequest, reason]
  have hnul : Text.hasNul (reason text) = false ↔ ∀ c ∈ text.take 8192, c.val ≠ 0 := by
    rw [Text.hasNul, List.contains_eq_mem, decide_eq_false_iff_not, reason, String.toList_ofList,
      Dumps.nul_mem_joined]
    simp
  rw [Request.clean_iff, hreport, hnul]
  refine ⟨fun h => h.1, fun h => ⟨h, List.forall_mem_nil _, fun _ => ?_⟩⟩
  exact show Int4 (-1) by decide

theorem Running.holds {db : Db} {o : Nat → Oracle} {x : RPC} {l : Lease} {a : AttemptRec}
    (h : Running db o x l a) (id : Uuid) (p : Payload) :
    db.Holds (fun o' => ∃ n, o' = o n) (x.request l id p) a where
  worker := h.worker
  named := by
    rw [Db.attempt?_id h.attempt]
    exact Uuid.parse_text l.attemptID
  attempt := by
    rw [Db.attempt?_id h.attempt]
    exact h.attempt
  owner := h.owner
  token := congrArg Uuid.text h.token
  running := h.state
  live := by
    rintro _ ⟨n, rfl⟩
    simp [AttemptRec.validAt, (h.live n 0).1, (h.live n 1).2]

/-- The id of the request is a new one. -/
def Fresh (db : Db) (id : Uuid) : Prop := ∀ row ∈ db.requests, row.requestID ≠ id.text

theorem Fresh.request {db : Db} {id : Uuid} (h : Fresh db id) (scope : String) :
    db.request? scope id.text = none :=
  Table.find_eq_none.mpr (fun row hrow hkey => h row hrow (congrArg Prod.snd hkey))

section Calls

variable [Sha256] {db : Db} {o : Nat → Oracle} {x : RPC} {l : Lease} {id : Uuid} {a : AttemptRec}

/-- A text that can be delivered is recorded. -/
theorem failure_accepted (h : Reachable db) (server : Store) (turns : List Grpc.Turn)
    (hrun : Running db o x l a) (hfresh : Fresh db id) {text : Str} (htext : Deliverable text) :
    ∃ db' t, Grpc.call server .failAttempt (x.envelope (some l) 0 id (failure text)) turns o db
        = (.value .accepted, db') ∧
      db'.attempt? l.attemptID = some (a.finish .failed (-1) (reason text) t) := by
  obtain ⟨w, hw, -⟩ := hrun.worker
  obtain ⟨hne, hshort, hnul⟩ := h.worker_named (Option.isSome_of_eq_some hw)
  have hrequest := x.envelope_request l id (failure_fits text)
  have hformed : (x.request l id (failure text)).Formed .failAttempt :=
    RPC.request_formed ⟨hne, hshort⟩ l id rfl ((failure_reportOk text).mpr htext.1) rfl
      (fun hm => by cases hm)
  have hnone := hfresh.request (Store.rpcScope .failAttempt (x.request l id (failure text)))
  have hholds := hrun.holds id (failure text)
  obtain ⟨res, hres⟩ := hholds.accepted (c := ⟨server, .rpc .failAttempt _, o⟩) h rfl hformed hnone
    ((failure_clean hnul l id text).mpr htext.2)
  obtain ⟨rfl, t, hattempt⟩ := perform_failure h.logged.1 rfl rfl hnone (Prod.ext hres rfl)
    hholds.named hholds.attempt
  rw [Db.attempt?_id hrun.attempt] at hattempt
  exact ⟨_, t, Grpc.call_value hrequest rfl (Prod.ext hres rfl), hattempt⟩

/-- Any other text is rejected, and the worker gives up. -/
theorem failure_rejected (h : Reachable db) (server : Store) (turns : List Grpc.Turn)
    (hrun : Running db o x l a) (hfresh : Fresh db id) {text : Str} (htext : ¬ Deliverable text) :
    ∃ code message, Grpc.call server .failAttempt (x.envelope (some l) 0 id (failure text)) turns o db
        = (.error code message, db) ∧
      ∀ started stop delay now rest,
        callLoop started stop delay ((now, .error code) :: rest) = .raised code := by
  obtain ⟨w, hw, -⟩ := hrun.worker
  obtain ⟨-, -, hnul⟩ := h.worker_named (Option.isSome_of_eq_some hw)
  have hrequest := x.envelope_request l id (failure_fits text)
  have hnone := hfresh.request (Store.rpcScope .failAttempt (x.request l id (failure text)))
  rcases hperform : perform ⟨server, .rpc .failAttempt (x.request l id (failure text)), o⟩ db with
    ⟨err | res, db'⟩
  · have hsame := perform_transactional _ db err (congrArg Prod.fst hperform)
    rw [hperform] at hsame
    dsimp only at hsame
    subst hsame
    obtain ⟨hunavailable, hdeadline⟩ := Grpc.status_final err
    refine ⟨_, _, Grpc.call_error hrequest rfl hperform, fun started stop delay now rest => ?_⟩
    rw [callLoop, if_pos (.inl ⟨hunavailable, hdeadline⟩)]
  · have hok := perform_reportOk (r := x.request l id (failure text)) h.logged.1 rfl rfl hnone hperform
    have hclean := perform_clean (r := x.request l id (failure text)) h rfl rfl hnone hperform
    exact absurd ⟨(failure_reportOk text).mp hok, (failure_clean hnul l id text).mp hclean⟩ htext

end Calls

end Worker

/-- The failure of a running attempt with a live lease is recorded exactly if the first 8192
code points of its text take at most 8192 bytes and do not hold U+0000. Otherwise the
report is rejected, the attempt stays as it is, and the worker does not try again. -/
theorem failure_recorded_iff [Sha256] (db : Db) (h : Reachable db) (server : Store)
    (o : Nat → Oracle) (turns : List Grpc.Turn) (x : Worker.RPC) (l : Lease) (a : AttemptRec)
    (hrun : Worker.Running db o x l a) (id : Uuid) (hfresh : Worker.Fresh db id) (text : Dumps.Str) :
    ((∃ db' t, Grpc.call server .failAttempt (x.envelope (some l) 0 id (Worker.failure text)) turns o db
          = (.value .accepted, db') ∧
        db'.attempt? l.attemptID = some (a.finish .failed (-1) (Worker.reason text) t)) ↔
      Worker.Deliverable text) ∧
    (¬ Worker.Deliverable text → ∃ code message,
      Grpc.call server .failAttempt (x.envelope (some l) 0 id (Worker.failure text)) turns o db
          = (.error code message, db) ∧
        ∀ started stop delay now rest,
          Worker.callLoop started stop delay ((now, .error code) :: rest) = .raised code) := by
  refine ⟨⟨?_, Worker.failure_accepted h server turns hrun hfresh⟩,
    Worker.failure_rejected h server turns hrun hfresh⟩
  rintro ⟨db', t, hcall, -⟩
  by_contra htext
  obtain ⟨code, message, hrejected, -⟩ := Worker.failure_rejected h server turns hrun hfresh htext
  rw [hcall] at hrejected
  cases hrejected

namespace Sample

/-- The calls of a worker whose session is a UUID. -/
def session (r : Request) : Request := { r with sessionID := rpc.sessionID.text }

def running : List Call :=
  [submitCall, ⟨server, .rpc .registerWorker (session register), oracle 2000⟩,
    ⟨server, .rpc .leaseJob (session { register with requestID := "2" }), oracle 3000⟩,
    ⟨server, .rpc .startAttempt (session (request "3")), oracle 4000⟩]

/-- What `running` leaves. -/
def runningDb : Db :=
  { startedDb with
    workers := [{ worker with sessionID := rpc.sessionID.text, lastHeartbeatAt := 4030 }] }

theorem running_exec : @exec digest running Db.empty = runningDb := by decide +kernel

theorem running_attempt : Worker.Running runningDb (oracle 5000) rpc lease (attempt.start 4070) where
  worker := ⟨_, rfl, rfl⟩
  attempt := by decide +kernel
  owner := rfl
  token := rfl
  state := rfl
  live := fun n i => by
    have hread := (@reads server .reap 5000 _ ⟨n, i, rfl⟩).2
    exact ⟨lt_of_lt_of_le hread (by decide), lt_of_lt_of_le hread (by decide)⟩

/-- The id of the report. -/
def reportID : Uuid := Uuid.ID 9

theorem running_fresh : Worker.Fresh runningDb reportID := by
  unfold Worker.Fresh
  decide +kernel

/-- What `Popen` raises for a command that does not exist. -/
def noSuchFile : Dumps.Str := Worker.str "[Errno 2] No such file or directory: 'train'"

/-- What `Popen` raises for a command with a name of 5000 characters outside of ASCII. -/
def nameTooLong : Dumps.Str :=
  Worker.str "[Errno 36] File name too long: '" ++ List.replicate 5000 ⟨0xe9, by decide⟩ ++
    Worker.str "'"

theorem nameTooLong_not_deliverable : ¬ Worker.Deliverable nameTooLong := by
  intro h
  have hlength : nameTooLong.length = 5033 := by
    simp only [nameTooLong, List.length_append, List.length_replicate]
    rfl
  have hplain : ∀ c ∈ nameTooLong, Dumps.isHigh c.val = false := by
    intro c hc
    rcases List.mem_append.mp hc with hc | hc
    · rcases List.mem_append.mp hc with hc | hc
      · exact Dumps.ofChars_not_high hc
      · rw [List.eq_of_mem_replicate hc]
        decide
    · exact Dumps.ofChars_not_high hc
  have hsize := h.1
  rw [List.take_of_length_le (by rw [hlength]; decide), Dumps.size_eq_sum hplain] at hsize
  have hwidth : Utf8Decode.width 0xe9 = 2 := by decide
  simp only [nameTooLong, List.map_append, List.sum_append, List.map_replicate, List.sum_replicate,
    Nat.nsmul_eq_mul, hwidth] at hsize
  omega

end Sample

/-- The failure of a command that does not exist is recorded. -/
theorem failure_recorded_sample : @Reachable Sample.digest Sample.runningDb ∧
    Worker.Deliverable Sample.noSuchFile ∧
    ∃ db' t, @Grpc.call Sample.digest Sample.server .failAttempt (Sample.rpc.envelope
        (some Sample.lease) 0 Sample.reportID (Worker.failure Sample.noSuchFile))
        [] (Sample.oracle 5000) Sample.runningDb = (.value .accepted, db') ∧
      db'.attempt? Sample.attemptID = some ((Sample.attempt.start 4070).finish .failed (-1)
        (Worker.reason Sample.noSuchFile) t) := by
  have hreach : @Reachable Sample.digest Sample.runningDb := ⟨_, Sample.running_exec.symm⟩
  have htext : Worker.Deliverable Sample.noSuchFile := by
    unfold Worker.Deliverable
    decide
  exact ⟨hreach, htext, (@failure_recorded_iff Sample.digest _ hreach _ _ _ _ _ _ Sample.running_attempt
    _ Sample.running_fresh _).1.mpr htext⟩

/-- The command of a job has a name of 5000 characters that take two bytes each. The report
of its failure is rejected, and the attempt is still running. -/
theorem long_reason_rejected : @Reachable Sample.digest Sample.runningDb ∧
    (∃ code message, @Grpc.call Sample.digest Sample.server .failAttempt (Sample.rpc.envelope
        (some Sample.lease) 0 Sample.reportID (Worker.failure Sample.nameTooLong)) []
        (Sample.oracle 5000) Sample.runningDb = (.error code message, Sample.runningDb)) ∧
    ∃ a, Sample.runningDb.attempt? Sample.attemptID = some a ∧ a.state = .running := by
  have hreach : @Reachable Sample.digest Sample.runningDb := ⟨_, Sample.running_exec.symm⟩
  obtain ⟨code, message, hcall, -⟩ := @Worker.failure_rejected Sample.digest _ _ _ _ _ _
    hreach Sample.server [] Sample.running_attempt Sample.running_fresh _
    Sample.nameTooLong_not_deliverable
  exact ⟨hreach, ⟨code, message, hcall⟩, _, Sample.running_attempt.attempt, rfl⟩

end Rungrid
