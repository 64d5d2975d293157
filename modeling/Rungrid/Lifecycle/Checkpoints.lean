-- SUMMARY: The checkpoint of a lease is the entry that reports of the job committed for the first time last.
import Rungrid.Lifecycle.Artifacts

/-!
# Checkpoints

The placement query takes the newest checkpoint row of the job. `reportedCheckpoints`
is read off the run instead: the checkpoint entries of the reports that were applied,
in the order of the reports and of their lists. While every report lists keys of its
own, the rows of a job are these entries, each key once, and the newest row is the last
of them.
-/

namespace Rungrid

open Prog

/-! ## What the reports of a run commit -/

section Spec

variable [Sha256]

/-- The checkpoint entries a call commits for a job. -/
def Call.checkpoints (c : Call) (db : Db) (job : Uuid) : List Artifact :=
  match c.op with
  | .rpc m r =>
      if m.reports && c.applied db &&
          ((Uuid.parse r.attemptID).bind db.attempt?).any (fun a => a.jobID = job) then
        r.artifacts.elems.filter (fun x => x.kind = ArtifactKind.checkpoint.text)
      else []
  | _ => []

/-- The checkpoint entries a run commits for a job, in order. -/
def reportedCheckpoints (job : Uuid) : List Call → Db → List Artifact
  | [], _ => []
  | c :: cs, db => c.checkpoints db job ++ reportedCheckpoints job cs (perform c db).2

theorem reportedCheckpoints_append (job : Uuid) (cs ds : List Call) (db : Db) :
    reportedCheckpoints job (cs ++ ds) db
      = reportedCheckpoints job cs db ++ reportedCheckpoints job ds (exec cs db) := by
  induction cs generalizing db with
  | nil => rfl
  | cons d cs ih => simp [reportedCheckpoints, ih]

/-- No key the call reports is stored for another attempt. -/
def Call.OwnKeys (c : Call) (db : Db) : Prop :=
  ∀ m r, c.op = .rpc m r → m.reports = true → ∀ row ∈ db.artifacts,
    row.objectKey ∈ r.artifacts.elems.map Artifact.objectKey →
      Uuid.parse r.attemptID = some row.attemptID

end Spec

/-! ## Calls that leave the artifacts -/

section Frame

variable {P : Oracle → Prop} {s : Store} {db db' : Db}

theorem Effect.artifacts_eq {c : Change} (h : Effect P s db c db') (hc : ∀ a, c ≠ .recorded a) :
    db'.artifacts = db.artifacts := by
  cases h with
  | recorded => exact absurd rfl (hc _)
  | _ => rfl

theorem Changes.artifacts_eq {cs : List Change} (h : Changes P s db cs db')
    (hcs : ∀ a, .recorded a ∉ cs) : db'.artifacts = db.artifacts := by
  induction h with
  | nil => rfl
  | cons he _ ih =>
      rw [ih (fun a ha => hcs a (List.mem_cons_of_mem _ ha))]
      exact he.artifacts_eq (fun a ha => hcs a (ha ▸ List.mem_cons_self))

/-- Only reports record artifacts. -/
theorem Op.Makes.recorded {op : Op} {cs : List Change} {a : Uuid} (h : op.Makes P db cs)
    (hmem : .recorded a ∈ cs) : ∃ m r, op = .rpc m r ∧ m.reports = true := by
  obtain ⟨m, r, b, j, cs', rfl, -, rfl, hmc⟩ := h.ofAttempt hmem rfl
  refine ⟨m, r, rfl, ?_⟩
  cases m with
  | heartbeat =>
      obtain rfl : cs' = [.renewed b.id] := hmc
      simp at hmem
  | startAttempt => rcases hmc with rfl | rfl <;> simp at hmem
  | reportProgress => rfl
  | completeAttempt => rfl
  | failAttempt => rfl
  | _ => exact hmc.elim

variable [Sha256]

/-- A call that is no report leaves the artifacts. -/
theorem perform_artifacts_eq {c : Call} (hdb : db.Sound)
    (hop : ∀ m r, c.op = .rpc m r → m.reports = false) :
    (perform c db).2.artifacts = db.artifacts := by
  cases happ : c.applied db with
  | false => rw [(perform_unapplied hdb happ).1]
  | true =>
      obtain ⟨cs, mid, hmakes, hcs, heq⟩ :=
        Call.applied_changes (P := fun _ => True) (fun _ => trivial) hdb happ
      rw [heq]
      refine hcs.artifacts_eq (fun a ha => ?_)
      obtain ⟨m, r, hmr, hrep⟩ := hmakes.recorded ha
      rw [hop m r hmr] at hrep
      cases hrep

end Frame

/-! ## Stored checkpoints -/

/-- The checkpoint rows of a job, in insertion order. -/
def Db.checkpointsOf (db : Db) (job : Uuid) : List ArtifactRec :=
  (db.artifactsOf job).filter (fun x => x.kind = .checkpoint)

theorem ArtifactKind.text_eq {k : ArtifactKind} :
    k.text = ArtifactKind.checkpoint.text ↔ k = .checkpoint := by
  cases k <;> decide

section Step

variable {P : Oracle → Prop} {db db' : Db} {r : Request} {a : AttemptRec} {j : JobRec}
  {new : List ArtifactRec} {scope : String}

/-- The checkpoint rows a report adds. -/
theorem Recorded.checkpoints (h : Recorded db.artifacts new scope j.id a.id r.artifacts.elems)
    (hart : db'.artifacts = db.artifacts ++ new) (job : Uuid) :
    (db'.checkpointsOf job).map ArtifactRec.artifact
      = (db.checkpointsOf job).map ArtifactRec.artifact ++
        if j.id = job then
          (Table.fresh Artifact.objectKey (db.artifacts.map ArtifactRec.objectKey)
            r.artifacts.elems).filter (fun x => x.kind = ArtifactKind.checkpoint.text)
        else [] := by
  simp only [Db.checkpointsOf, Db.artifactsOf, hart, List.filter_append, List.map_append]
  congr 1
  split
  · rename_i hj
    have hall : new.filter (fun x => x.jobID = job) = new := by
      rw [List.filter_eq_self]
      intro x hx
      simp [(h.owner x hx).1, hj]
    rw [hall, ← h.entries, List.filter_map]
    congr 2
    funext x
    simp [ArtifactRec.artifact, ArtifactKind.text_eq]
  · rename_i hj
    have hnone : new.filter (fun x => x.jobID = job) = [] := by
      rw [List.filter_eq_nil_iff]
      intro x hx
      simp [(h.owner x hx).1, hj]
    rw [hnone]
    rfl

/-- The keys of a report that are stored are stored for its job, as checkpoints if
they are reported as checkpoints. -/
theorem Recorded.seen (h : Recorded db.artifacts new scope j.id a.id r.artifacts.elems)
    (hart : db'.artifacts = db.artifacts ++ new) (hwf : db'.WF) (hf : Fenced P db r a j)
    (hsc : ∀ x ∈ db.artifacts, x.Scoped db)
    (hown : ∀ row ∈ db.artifacts, row.objectKey ∈ r.artifacts.elems.map Artifact.objectKey →
      row.attemptID = a.id)
    {x : Artifact} (hx : x ∈ r.artifacts.elems) (hkind : x.kind = ArtifactKind.checkpoint.text) :
    x.objectKey ∈ db.artifacts.map ArtifactRec.objectKey ↔
      x.objectKey ∈ ((db.checkpointsOf j.id).map ArtifactRec.artifact).map Artifact.objectKey := by
  constructor
  · intro hmem
    obtain ⟨row, hrow, hkey⟩ := List.mem_map.mp hmem
    have hid := hown row hrow (hkey ▸ List.mem_map_of_mem hx)
    obtain ⟨a', -, ha', -, hjob, -⟩ := hsc row hrow
    rw [hid, hf.attempt] at ha'
    obtain rfl := Option.some.inj ha'
    -- The entry is stored, so it is this row.
    obtain ⟨row', hrow', rfl⟩ := h.stored x hx
    obtain rfl := hwf.objects.eq_of_key (hart ▸ List.mem_append_left new hrow) (hart ▸ hrow') hkey
    refine List.mem_map_of_mem (List.mem_map_of_mem ?_)
    simp only [Db.checkpointsOf, Db.artifactsOf, List.mem_filter, decide_eq_true_eq]
    exact ⟨⟨hrow, hjob.symm.trans hf.jobID.symm⟩, ArtifactKind.text_eq.mp hkind⟩
  · intro hmem
    rw [List.map_map] at hmem
    obtain ⟨row, hrow, hkey⟩ := List.mem_map.mp hmem
    exact List.mem_map.mpr ⟨row, List.mem_of_mem_filter (List.mem_of_mem_filter hrow), hkey⟩

/-- Entries of one key are equal. -/
theorem Recorded.entry_unique (h : Recorded db.artifacts new scope j.id a.id r.artifacts.elems)
    (hart : db'.artifacts = db.artifacts ++ new) (hwf : db'.WF) :
    ∀ x ∈ r.artifacts.elems, ∀ y ∈ r.artifacts.elems, x.objectKey = y.objectKey → x = y := by
  intro x hx y hy hxy
  obtain ⟨row, hrow, rfl⟩ := h.stored x hx
  obtain ⟨row', hrow', rfl⟩ := h.stored y hy
  obtain rfl := hwf.objects.eq_of_key (hart ▸ hrow) (hart ▸ hrow') hxy
  rfl

end Step

section Runs

variable [Sha256]

/-- One call extends the checkpoint rows of a job by the entries it commits for the
first time. -/
theorem perform_checkpoints {db : Db} {c : Call} (h : Reachable db) (hdb : db.Sound)
    (hown : c.applied db = true → c.OwnKeys db) (job : Uuid) :
    ((perform c db).2.checkpointsOf job).map ArtifactRec.artifact
      = (db.checkpointsOf job).map ArtifactRec.artifact ++ Table.fresh Artifact.objectKey
        (((db.checkpointsOf job).map ArtifactRec.artifact).map Artifact.objectKey)
        (c.checkpoints db job) := by
  -- A call that commits no entry leaves the artifacts as they are.
  have hskip : (perform c db).2.artifacts = db.artifacts → c.checkpoints db job = [] →
      ((perform c db).2.checkpointsOf job).map ArtifactRec.artifact
        = (db.checkpointsOf job).map ArtifactRec.artifact ++ Table.fresh Artifact.objectKey
          (((db.checkpointsOf job).map ArtifactRec.artifact).map Artifact.objectKey)
          (c.checkpoints db job) := by
    intro hart hnone
    rw [hnone, Table.fresh, List.append_nil, Db.checkpointsOf, Db.artifactsOf, hart]
    rfl
  by_cases hrep : ∃ m r, c.op = .rpc m r ∧ m.reports = true
  · obtain ⟨m, r, hop, hm⟩ := hrep
    cases happ : c.applied db with
    | false =>
        exact hskip (by rw [(perform_unapplied hdb happ).1]) (by simp [Call.checkpoints, hop, happ])
    | true =>
        obtain ⟨res, hres, hfresh⟩ := Call.applied_ok happ
        have hnone : db.request? (Store.rpcScope m r) r.requestID = none := by
          simpa [Op.fresh, hop, Op.key] using hfresh
        obtain ⟨a, j, new, hf, -, hart, hnew⟩ := perform_reports hop hm hdb hnone
          (Prod.ext hres rfl : perform c db = (.ok res, (perform c db).2))
        have hkeys : ∀ row ∈ db.artifacts,
            row.objectKey ∈ r.artifacts.elems.map Artifact.objectKey → row.attemptID = a.id := by
          intro row hrow hkey
          have hparse := hown happ m r hop hm row hrow hkey
          rw [hf.named] at hparse
          exact (Option.some.inj hparse).symm
        rw [hnew.checkpoints hart]
        simp only [Call.checkpoints, hop, hm, happ, hf.named, Option.bind_some, hf.attempt,
          Option.any_some, ← hf.jobID, Bool.true_and, decide_eq_true_eq]
        have hwf : (perform c db).2.WF := (exec_sound [c] hdb).wf
        by_cases hj : j.id = job
        · subst hj
          simp only [↓reduceIte]
          refine congrArg _ (Table.filter_fresh (hnew.entry_unique hart hwf) (fun x hx hk => ?_))
          exact hnew.seen hart hwf hf h.scoped hkeys hx (by simpa using hk)
        · simp [hj, Table.fresh]
  · have hno : ∀ m r, c.op = .rpc m r → m.reports = false := by
      intro m r hop
      by_contra hm
      exact hrep ⟨m, r, hop, by simpa using hm⟩
    refine hskip (perform_artifacts_eq hdb hno) ?_
    unfold Call.checkpoints
    split
    · rename_i m r hop
      simp [hno m r hop]
    · rfl

/-- The checkpoint rows of a job are the entries its reports committed. -/
theorem exec_checkpoints (cs : List Call) (job : Uuid)
    (hown : ∀ pre d post, cs = pre ++ d :: post → d.applied (exec pre Db.empty) = true →
      d.OwnKeys (exec pre Db.empty)) :
    ((exec cs Db.empty).checkpointsOf job).map ArtifactRec.artifact
      = Table.fresh Artifact.objectKey [] (reportedCheckpoints job cs Db.empty) := by
  induction cs using List.reverseRecOn with
  | nil => rfl
  | append_singleton cs c ih =>
      have ih := ih (fun pre d post hcs => hown pre d (post ++ [c]) (by simp [hcs]))
      rw [exec_concat, perform_checkpoints ⟨cs, rfl⟩ (exec_sound cs Db.sound_empty) (hown cs c [] rfl),
        reportedCheckpoints_append, Table.fresh_append, ih, List.append_nil]
      simp only [reportedCheckpoints, List.append_nil]
      refine congrArg _ (Table.fresh_congr (fun k => ?_) _)
      simp [Table.mem_map_fresh]

/-- Where scopes are apart every report lists keys of its own. -/
theorem Db.Apart.ownKeys {cs : List Call} (h : (exec cs Db.empty).Apart) :
    ∀ pre d post, cs = pre ++ d :: post → d.applied (exec pre Db.empty) = true →
      d.OwnKeys (exec pre Db.empty) := by
  rintro pre d post rfl happ m r hop hm row hrow hkey
  have hsound := exec_sound pre Db.sound_empty
  have hreach : Reachable (exec pre Db.empty) := ⟨pre, rfl⟩
  obtain ⟨res, hres, hfresh⟩ := Call.applied_ok happ
  have hnone : (exec pre Db.empty).request? (Store.rpcScope m r) r.requestID = none := by
    simpa [Op.fresh, hop, Op.key] using hfresh
  obtain ⟨a, j, new, hf, -, -, hnew⟩ := perform_reports hop hm hsound hnone
    (Prod.ext hres rfl : perform d (exec pre Db.empty) = (.ok res, (perform d (exec pre Db.empty)).2))
  rw [exec_append] at h
  have hapart := h.of_grows hsound.wf (exec_settles hreach (d :: post)).grows
  rw [hf.named, hapart.owns hsound.wf hreach.scoped hf hnew.admitted row hrow hkey]

/-! ## The checkpoint of a lease -/

omit [Sha256] in
theorem Db.attempt?_of_free {db : Db} {id job : Uuid} {number : Int}
    (h : db.attemptTaken id job number = false) : db.attempt? id = none := by
  simp only [Db.attemptTaken, List.any_eq_false, Bool.or_eq_true, decide_eq_true_eq, not_or] at h
  exact Table.find_eq_none.mpr (fun a ha => (h a ha).1)

omit [Sha256] in
/-- A lease that is granted is stored as it says. -/
theorem Granted.stored {P : Oracle → Prop} {s : Store} {db db' : Db} {r : Request} {cap : Resources}
    {l : Lease} (h : Granted P s db r cap l db') :
    ∃ a o, P o ∧ db'.attempt? l.attemptID = some a ∧ a.jobID = l.job.id ∧
      a.attemptNumber = l.attemptNumber ∧ a.leaseExpiresAt = l.leaseExpiresAt ∧
      l.serverTime = o.clock 3 := by
  cases h with
  | @mk j id token o oj oe _ _ hfree _ ho _ _ =>
      have hnone : db.attempt? (newAttempt id j.id (db.nextNumber j.id) r.workerID token
          s.leaseSeconds j.definition.timeoutSeconds o).id = none := Db.attempt?_of_free hfree
      exact ⟨_, o, ho, Table.find_append_self hnone, rfl, rfl, rfl, rfl⟩

/-- A lease that is not the replay of an earlier one. -/
theorem perform_lease {P : Oracle → Prop} {db db' : Db} {c : Call} {r : Request} {l : Lease}
    (hop : c.op = .rpc .leaseJob r) (hP : ∀ n, P (c.oracle n)) (hdb : db.Sound)
    (hfresh : db.request? (Store.rpcScope .leaseJob r) r.requestID = none)
    (h : perform c db = (.ok (.response (.lease l)), db')) :
    ∃ w o rs rs' mid, db.worker? r.workerID = some w ∧ P o ∧
      Granted P c.server ((db.withRequests rs).apply (.putWorker { w with lastHeartbeatAt := o.clock 0 }))
        r w.capacity l mid ∧ db' = mid.withRequests rs' := by
  obtain ⟨response, rs, rs', mid, hresp, hbody, rfl⟩ := perform_body hop hP hdb hfresh h
  cases hresp
  obtain ⟨_, _, h⟩ := runs_read (fun _ => rfl) hbody
  rw [reread_self] at h
  cases hw : (db.withRequests rs).worker? r.workerID with
  | none =>
      rw [hw] at h
      exact absurd h not_runs_fail
  | some w =>
      rw [hw] at h
      dsimp only at h
      split at h
      · exact absurd h not_runs_fail
      obtain ⟨o, ho, h⟩ := runs_total (fun _ => rfl) h
      simp only [reread_self, hw, updateRow_some] at h
      split at h
      · exact absurd h not_runs_fail
      rcases lease_runs h with ⟨hidle, -⟩ | ⟨l', hl, hgrant⟩
      · cases hidle
      · cases hl
        exact ⟨w, o, rs, rs', mid, hw, ho, hgrant, rfl⟩

end Runs

/-- The rows of a job in the order in which the clock was read for them. -/
theorem Db.newestCheckpoint_last {db : Db}
    (h : (db.artifacts.map ArtifactRec.createdAt).Pairwise (· < ·)) (job : Uuid) :
    db.newestCheckpoint job = (db.checkpointsOf job).getLast? := by
  have hrows : (db.checkpointsOf job).Pairwise (fun a b => ¬ a.newer b) := by
    refine ((List.pairwise_map.mp h).filter _).filter _ |>.imp ?_
    intro a b hab hnew
    have hlt : a.createdAt < b.createdAt := hab
    rcases hnew with hgt | ⟨heq, -⟩
    · exact lt_asymm hlt hgt
    · exact absurd heq hlt.ne
  have hsorted : db.newestCheckpoint job
      = ((db.checkpointsOf job).insertionSort ArtifactRec.newer).head? := rfl
  rw [hsorted, Table.insertionSort_reverse hrows, List.head?_reverse]

/-- The checkpoint of a lease is the entry that was committed for the first time last
by the reports of the job, if the clock strictly increases between the inserts of
artifacts and no report lists a key that is stored for another attempt. -/
theorem lease_resumes_last_checkpoint [Sha256] (cs : List Call) (c : Call) (r : Request) (l : Lease)
    (hclock : ((exec cs Db.empty).artifacts.map ArtifactRec.createdAt).Pairwise (· < ·))
    (hown : ∀ pre d post, cs = pre ++ d :: post → d.applied (exec pre Db.empty) = true →
      d.OwnKeys (exec pre Db.empty))
    (hop : c.op = .rpc .leaseJob r) (happ : c.applied (exec cs Db.empty) = true)
    (hres : (perform c (exec cs Db.empty)).1 = .ok (.response (.lease l))) :
    l.checkpoint = (Table.fresh Artifact.objectKey []
      (reportedCheckpoints l.job.id cs Db.empty)).getLast? := by
  have hsound := exec_sound cs Db.sound_empty
  obtain ⟨_, -, hfresh⟩ := Call.applied_ok happ
  have hnone : (exec cs Db.empty).request? (Store.rpcScope .leaseJob r) r.requestID = none := by
    simpa [Op.fresh, hop, Op.key] using hfresh
  obtain ⟨w, o, rs, rs', mid, -, -, hgrant, -⟩ := perform_lease (P := fun _ => True) hop
    (fun _ => trivial) hsound hnone (Prod.ext hres rfl)
  have hcheck : l.checkpoint
      = ((exec cs Db.empty).newestCheckpoint l.job.id).map ArtifactRec.artifact := by
    cases hgrant
    rfl
  rw [hcheck, Db.newestCheckpoint_last hclock, ← exec_checkpoints cs l.job.id hown,
    List.getLast?_map]

namespace Sample

/-- A checkpoint of the attempt. -/
def saved : Artifact := { own with kind := "checkpoint" }

def savedLater : Artifact := { saved with objectKey := Store.keyScope job jobID attemptID.text ++ "g" }

/-- The attempt is started beside a second job, reports `saved`, then both checkpoints, and
fails. -/
def interrupted : List Call :=
  leased ++ [startCall, apartCall,
    ⟨server, .rpc .reportProgress { request "4" with artifacts := some [saved] }, oracle 5000⟩,
    ⟨server, .rpc .reportProgress { request "5" with artifacts := some [saved, savedLater] }, oracle 5500⟩,
    ⟨server, .rpc .failAttempt (request "5"), oracle 6000⟩]

/-- The worker asks for a job again. -/
def againCall : Call := ⟨server, .rpc .leaseJob { register with requestID := "6" }, oracle 7000⟩

/-- The lease it gets. -/
def resumed : Lease :=
  ⟨{ jobRow.row with updatedAt := 6080 }, Uuid.ID 7006, 2, Uuid.ID 7007, 5007080, 7083, some savedLater⟩

end Sample

/-- The second attempt resumes from the last checkpoint of the first. -/
theorem lease_resumes_last_checkpoint_sample :
    (@perform Sample.digest Sample.againCall (@exec Sample.digest Sample.interrupted Db.empty)).1
      = .ok (.response (.lease Sample.resumed)) ∧
    some Sample.savedLater = (Table.fresh Artifact.objectKey []
      (@reportedCheckpoints Sample.digest Sample.jobID Sample.interrupted Db.empty)).getLast? := by
  have hrun : (@perform Sample.digest Sample.againCall
        (@exec Sample.digest Sample.interrupted Db.empty)).1
        = .ok (.response (.lease Sample.resumed)) ∧
      @Call.applied Sample.digest Sample.againCall
        (@exec Sample.digest Sample.interrupted Db.empty) = true ∧
      ((@exec Sample.digest Sample.interrupted Db.empty).artifacts.map
        ArtifactRec.createdAt).Pairwise (· < ·) ∧
      ∀ i ∈ (@exec Sample.digest Sample.interrupted Db.empty).jobs,
        ∀ j ∈ (@exec Sample.digest Sample.interrupted Db.empty).jobs, i.id ≠ j.id →
          Text.startsWith (Store.keyBase j.definition j.id) (Store.keyBase i.definition i.id) = false := by
    rw [Sample.interrupted, @exec_append Sample.digest, Sample.leased_exec]
    decide +kernel
  obtain ⟨hres, happ, hclock, hbases⟩ := hrun
  exact ⟨hres, @lease_resumes_last_checkpoint Sample.digest Sample.interrupted Sample.againCall
    { Sample.register with requestID := "6" } Sample.resumed hclock
    (@Db.Apart.ownKeys Sample.digest _ (Db.apart_of_bases hbases)) rfl happ hres⟩

/-! ### A report of a key that is stored for another job -/

namespace Sample

/-- The first attempt of the nested run reports `shared` and fails. -/
def sharedThenFails : List Call :=
  [sharedCall, ⟨server, .rpc .failAttempt (request "8"), oracle 10000⟩]

/-- The worker asks for a job again. -/
def nestedAgain : Call := ⟨server, .rpc .leaseJob { register with requestID := "9" }, oracle 11000⟩

/-- The lease it gets, without a checkpoint. -/
def restarted : Lease :=
  ⟨{ jobRow.row with updatedAt := 10080 }, Uuid.ID 11006, 2, Uuid.ID 11007, 5011080, 11083, none⟩

end Sample

/-- The report of a checkpoint is applied, and the next lease of the job has none. -/
theorem nested_checkpoint_lost :
    ((@exec Sample.digest (Sample.nested ++ Sample.sharedThenFails) Db.empty).artifacts.map
      ArtifactRec.createdAt).Pairwise (· < ·) ∧
    @Call.applied Sample.digest Sample.nestedAgain
      (@exec Sample.digest (Sample.nested ++ Sample.sharedThenFails) Db.empty) = true ∧
    (@perform Sample.digest Sample.nestedAgain
      (@exec Sample.digest (Sample.nested ++ Sample.sharedThenFails) Db.empty)).1
      = .ok (.response (.lease Sample.restarted)) ∧
    Sample.restarted.checkpoint = none ∧
    Sample.shared ∈ @reportedCheckpoints Sample.digest Sample.restarted.job.id
      (Sample.nested ++ Sample.sharedThenFails) Db.empty := by
  rw [@exec_append Sample.digest, @reportedCheckpoints_append Sample.digest, Sample.nested_exec]
  have hrun : ((@exec Sample.digest Sample.sharedThenFails Sample.nestedDb).artifacts.map
        ArtifactRec.createdAt).Pairwise (· < ·) ∧
      @Call.applied Sample.digest Sample.nestedAgain
        (@exec Sample.digest Sample.sharedThenFails Sample.nestedDb) = true ∧
      (@perform Sample.digest Sample.nestedAgain
        (@exec Sample.digest Sample.sharedThenFails Sample.nestedDb)).1
        = .ok (.response (.lease Sample.restarted)) ∧
      Sample.shared ∈ @reportedCheckpoints Sample.digest Sample.restarted.job.id
        Sample.sharedThenFails Sample.nestedDb := by
    decide +kernel
  exact ⟨hrun.1, hrun.2.1, hrun.2.2.1, rfl, List.mem_append_right _ hrun.2.2.2⟩

end Rungrid
