-- SUMMARY: When the entries of an accepted report are stored for the attempt that reports them.
import Rungrid.Lifecycle.Artifacts

/-!
# Recorded reports

The entries of an accepted report are stored for the reporting attempt exactly if no
other attempt has stored one of their keys, which holds in every run whose key scopes
are apart.
-/

namespace Rungrid

/-- A report that is applied stores its entries for the reporting attempt exactly if
none of their keys is stored for another attempt. In a run whose key scopes are apart
every accepted report does, and no key is accepted for two attempts. -/
theorem reports_record_artifacts [Sha256] (cs : List Call) (hsha : NoCollision cs) :
    (∀ pre c post m r, cs = pre ++ c :: post → m.reports = true → c.op = .rpc m r →
      c.applied (exec pre Db.empty) = true →
      ∃ a, (exec pre Db.empty).attempt? a.id = some a ∧ Uuid.parse r.attemptID = some a.id ∧
        ((perform c (exec pre Db.empty)).2.Records a r.artifacts.elems ↔
          ∀ row ∈ (exec pre Db.empty).artifacts,
            row.objectKey ∈ r.artifacts.elems.map Artifact.objectKey → row.attemptID = a.id)) ∧
    ((exec cs Db.empty).Apart →
      (∀ pre c post m r, cs = pre ++ c :: post → m.reports = true →
        c.Accepted (exec pre Db.empty) m r →
        ∃ a, (exec (pre ++ [c]) Db.empty).attempt? a.id = some a ∧
          Uuid.parse r.attemptID = some a.id ∧
          (exec (pre ++ [c]) Db.empty).Records a r.artifacts.elems) ∧
      ∀ pre c post m r pre' c' post' m' r', cs = pre ++ c :: post → cs = pre' ++ c' :: post' →
        m.reports = true → m'.reports = true → c.Accepted (exec pre Db.empty) m r →
        c'.Accepted (exec pre' Db.empty) m' r' →
        ∀ x ∈ r.artifacts.elems, ∀ y ∈ r'.artifacts.elems, x.objectKey = y.objectKey →
          Uuid.parse r.attemptID = Uuid.parse r'.attemptID) := by
  have hgrows : ∀ {pre c post}, cs = pre ++ c :: post →
      (exec (pre ++ [c]) Db.empty).Grows (exec cs Db.empty) := by
    rintro pre c post rfl
    rw [exec_concat]
    exact exec_grows_from pre c post
  have hrec : (exec cs Db.empty).Apart → ∀ {pre c post m r}, cs = pre ++ c :: post →
      m.reports = true → c.Accepted (exec pre Db.empty) m r →
      ∃ a, (exec (pre ++ [c]) Db.empty).attempt? a.id = some a ∧
        Uuid.parse r.attemptID = some a.id ∧
        (exec (pre ++ [c]) Db.empty).Records a r.artifacts.elems := by
    intro hapart pre c post m r hcs hm hacc
    exact accepted_records (hsha.part hcs) hm hacc
      (hapart.of_grows (exec_sound _ Db.sound_empty).wf (hgrows hcs))
  refine ⟨fun pre c post m r hcs hm hop happ => ?_, fun hapart => ⟨fun pre c post m r hcs hm hacc =>
    hrec hapart hcs hm hacc, fun pre c post m r pre' c' post' m' r' hcs hcs' hm hm' hacc hacc' x hx y
    hy hxy => ?_⟩⟩
  · have hsound := exec_sound pre Db.sound_empty
    have hreach : Reachable (exec pre Db.empty) := ⟨pre, rfl⟩
    obtain ⟨res, hres, hfresh⟩ := Call.applied_ok happ
    have hnone : (exec pre Db.empty).request? (Store.rpcScope m r) r.requestID = none := by
      simpa [Op.fresh, hop, Op.key] using hfresh
    have hok : perform c (exec pre Db.empty) = (.ok res, (perform c (exec pre Db.empty)).2) :=
      Prod.ext hres rfl
    obtain ⟨a, j, new, hf, -, hart, hnew⟩ := perform_reports hop hm hsound hnone hok
    exact ⟨a, hf.attempt, hf.named,
      hnew.records_iff hreach.scoped (exec_sound [c] hsound).wf hf hart⟩
  · obtain ⟨a, ha, hpa, hra⟩ := hrec hapart hcs hm hacc
    obtain ⟨b, hb, hpb, hrb⟩ := hrec hapart hcs' hm' hacc'
    obtain ⟨row, hrow, rfl, -, hida⟩ := hra x hx
    obtain ⟨row', hrow', rfl, -, hidb⟩ := hrb y hy
    -- Both rows are stored at the end of the run, where keys are unique.
    obtain rfl := (exec_sound cs Db.sound_empty).wf.objects.eq_of_key
      ((hgrows hcs).artifacts.subset hrow) ((hgrows hcs').artifacts.subset hrow') hxy
    rw [hpa, hpb, ← hida, hidb]

private theorem ok_of_toOption {ε α : Type} {x : Except ε α} {a : α} (h : x.toOption = some a) :
    x = .ok a := by
  cases x with
  | error e => cases h
  | ok b => rw [Option.some.inj h]

namespace Sample

def ownLater : Artifact := { own with objectKey := Store.keyScope job jobID attemptID.text ++ "g" }

def pairRequest : Request := { request "4" with artifacts := some [own, ownLater] }

/-- The attempt reports both artifacts. -/
def pairCall : Call := ⟨server, .rpc .reportProgress pairRequest, oracle 5000⟩

/-- What `leased` leaves with the payloads in the receipts. -/
def plainLeasedDb : Db :=
  { leasedDb with
    requests := [⟨"rpc:RegisterWorker:w", "1", @Sha256.hex plain register.toJson.marshal,
        some .registered, 2000⟩,
      ⟨"rpc:LeaseJob:w", "2",
        @Sha256.hex plain { register with requestID := "2" }.toJson.marshal, some (.lease lease), 3000⟩] }

/-- The attempt is started. -/
def plainStartedDb : Db :=
  { plainLeasedDb with
    jobs := [{ jobRow with state := .running, updatedAt := 4080 }]
    workers := [{ worker with lastHeartbeatAt := 4030 }]
    attempts := [attempt.start 4070]
    events := plainLeasedDb.events ++
      [⟨3, jobID, some attemptID, .method .startAttempt, (request "3").report, 4090⟩]
    requests := plainLeasedDb.requests ++ [⟨"rpc:StartAttempt:w", "3",
      @Sha256.hex plain (request "3").toJson.marshal, some .accepted, 4000⟩] }

theorem plain_leased : @exec plain leased Db.empty = plainLeasedDb := by decide +kernel

theorem plain_started : @exec plain (leased ++ [startCall]) Db.empty = plainStartedDb := by
  rw [@exec_concat plain, plain_leased]
  decide +kernel

/-- A second job is submitted. -/
def plainPairDb : Db :=
  { plainStartedDb with
    jobs := plainStartedDb.jobs ++ [apartJob.newRow (Uuid.ID 4501) (oracle 4500 2)]
    events := plainStartedDb.events ++ [⟨4, Uuid.ID 4501, none, .submitted, .empty, 4540⟩] }

theorem plain_pair : @exec plain (leased ++ [startCall] ++ [apartCall]) Db.empty = plainPairDb := by
  rw [@exec_concat plain, plain_started]
  decide +kernel

end Sample

/-- A report of two artifacts beside another job. -/
theorem reports_record_artifacts_sample :
    ∃ a, Uuid.parse Sample.attemptID.text = some a.id ∧
      (@exec Sample.plain (Sample.leased ++ [Sample.startCall] ++ [Sample.apartCall] ++ [Sample.pairCall])
        Db.empty).Records a [Sample.own, Sample.ownLater] := by
  have hbody : ((Sample.server.rpcBody .reportProgress Sample.pairRequest >>= fun res =>
        Prog.sql (.setResponse (Store.rpcScope .reportProgress Sample.pairRequest) "4" res) >>=
        fun _ => pure res).run (fun n => Sample.oracle 5000 (n + 2))
        (Sample.plainPairDb.withRequests (Sample.plainPairDb.requests ++
          [⟨Store.rpcScope .reportProgress Sample.pairRequest, "4",
            @Sha256.hex Sample.plain Sample.pairRequest.toJson.marshal, none, 5000⟩]))).toOption.map
        (fun x => (x.1, decide (∀ i ∈ x.2.jobs, ∀ j ∈ x.2.jobs, i.id ≠ j.id → Text.startsWith
          (Store.keyBase j.definition j.id) (Store.keyBase i.definition i.id) = false)))
        = some (.accepted, true) := by
    decide +kernel
  obtain ⟨⟨res, db'⟩, hrun, hpair⟩ := Option.map_eq_some_iff.mp hbody
  obtain ⟨hres, hbases⟩ := Prod.mk.inj hpair
  subst hres
  have hperform := @perform_fresh Sample.plain Sample.plainPairDb db' Sample.server .reportProgress
    Sample.pairRequest (Sample.oracle 5000) .accepted (by decide)
    ⟨by decide, by decide, by decide, by decide⟩ (by decide) (ok_of_toOption hrun)
  rw [← Sample.plain_pair] at hperform
  have hapart : (@exec Sample.plain (Sample.leased ++ [Sample.startCall] ++ [Sample.apartCall] ++
      [Sample.pairCall]) Db.empty).Apart := by
    rw [@exec_concat Sample.plain, show Sample.pairCall = ⟨Sample.server, .rpc .reportProgress
      Sample.pairRequest, Sample.oracle 5000⟩ from rfl, hperform]
    exact Db.apart_of_bases (of_decide_eq_true hbases)
  obtain ⟨a, -, hparse, hrec⟩ := ((@reports_record_artifacts Sample.plain
    (Sample.leased ++ [Sample.startCall] ++ [Sample.apartCall] ++ [Sample.pairCall])
    (fun _ _ _ _ _ _ h => h)).2 hapart).1
    (Sample.leased ++ [Sample.startCall] ++ [Sample.apartCall]) Sample.pairCall [] .reportProgress _ rfl rfl
    ⟨rfl, .response .accepted, congrArg Prod.fst hperform⟩
  exact ⟨a, hparse, hrec⟩

instance (db : Db) (a : AttemptRec) (xs : List Artifact) : Decidable (db.Records a xs) :=
  inferInstanceAs (Decidable (∀ x ∈ xs, ∃ row ∈ db.artifacts, _))

/-- The report of an entry that is stored for the attempt of another job is accepted,
and the entry is not stored for the reporting attempt. -/
theorem nested_report_not_recorded :
    (@perform Sample.digest Sample.sharedCall (@exec Sample.digest Sample.nested Db.empty)).1
      = .ok (.response .accepted) ∧
    (∃ row ∈ (@exec Sample.digest Sample.nested Db.empty).artifacts, row.artifact = Sample.shared ∧
      row.attemptID = Sample.innerAttemptID) ∧
    ∃ a, (@exec Sample.digest Sample.nested Db.empty).attempt? Sample.attemptID = some a ∧
      ¬ (@perform Sample.digest Sample.sharedCall
        (@exec Sample.digest Sample.nested Db.empty)).2.Records a [Sample.shared] := by
  rw [Sample.nested_exec]
  have hreport : (@perform Sample.digest Sample.sharedCall Sample.nestedDb).1
        = .ok (.response .accepted) ∧
      ¬ (@perform Sample.digest Sample.sharedCall Sample.nestedDb).2.Records
        (Sample.attempt.start 6070) [Sample.shared] := by decide +kernel
  exact ⟨hreport.1, by decide +kernel, Sample.attempt.start 6070, by decide +kernel, hreport.2⟩

end Rungrid
