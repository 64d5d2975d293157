-- SUMMARY: The artifacts an accepted report stores, and when they are stored for the reporting attempt.
import Rungrid.Lifecycle.Fencing
import Rungrid.Lifecycle.Workers

/-!
# Artifacts of reports

An object key has to start with the key scope of the reporting attempt. An entry
whose key is already stored with the same columns is skipped, whoever it is stored
for. `Db.Apart` says when no key lies in the scopes of two attempts; then every entry
of an accepted report is stored for the attempt that reports it.
-/

namespace Rungrid

open Prog

/-! ## Key scopes -/

/-- The beginning of the object keys of a job. -/
def Store.keyBase (definition : Job) (jobID : Uuid) : String :=
  let scope := Text.trim definition.artifactPrefix '/'
  (if scope ≠ "" then scope ++ "/" else "") ++ jobID.text ++ "/"

theorem Store.keyScope_eq (definition : Job) (jobID : Uuid) (attemptID : String) :
    Store.keyScope definition jobID attemptID
      = Store.keyBase definition jobID ++ attemptID ++ "/" := rfl

/-- The keys of no job begin in the key scope of an attempt of another job. -/
def Db.Apart (db : Db) : Prop :=
  ∀ a ∈ db.attempts, ∀ i ∈ db.jobs, ∀ j ∈ db.jobs, a.jobID = i.id → i.id ≠ j.id →
    ∀ text, Uuid.parse text = some a.id →
      Text.startsWith (Store.keyBase j.definition j.id) (Store.keyScope i.definition i.id text)
        = false

/-- Jobs whose keys begin differently are apart. -/
theorem Db.apart_of_bases {db : Db} (h : ∀ i ∈ db.jobs, ∀ j ∈ db.jobs, i.id ≠ j.id →
    Text.startsWith (Store.keyBase j.definition j.id) (Store.keyBase i.definition i.id) = false) :
    db.Apart := by
  intro a _ i hi j hj _ hne text _
  rw [Bool.eq_false_iff]
  intro hscope
  refine Bool.eq_false_iff.mp (h i hi j hj hne) (Text.startsWith_iff.mpr ?_)
  rw [Text.startsWith_iff, Store.keyScope_eq, String.append_assoc, String.toList_append] at hscope
  exact (List.prefix_append _ _).trans hscope

/-- The key lies in the scope of the attempt `a` of the job `j`. -/
def InScope (a : AttemptRec) (j : JobRec) (key : String) : Prop :=
  ∃ text, Uuid.parse text = some a.id ∧
    Text.startsWith key (Store.keyScope j.definition j.id text) = true

section Scopes

variable {db db' : Db} {a b : AttemptRec} {i j : JobRec}

/-- Of two nested scopes the outer one is the inner one, or it contains all keys of
the job of the inner one. -/
theorem Store.keyScope_nested {t u : String} {x y : Uuid} (ht : Uuid.parse t = some x)
    (hu : Uuid.parse u = some y)
    (h : Text.startsWith (Store.keyScope j.definition j.id u)
      (Store.keyScope i.definition i.id t) = true) :
    Text.startsWith (Store.keyBase j.definition j.id) (Store.keyScope i.definition i.id t) = true ∨
      x = y := by
  rw [Store.keyScope_eq] at h ⊢
  rw [Store.keyScope_eq] at h
  simp only [Text.startsWith_iff, String.toList_append] at h ⊢
  rcases Text.prefix_segment (Uuid.parse_chars hu).2 h with hbase | heq
  · exact .inl hbase
  · right
    have hlen : t.toList.length = u.toList.length := by
      rw [(Uuid.parse_chars ht).1, (Uuid.parse_chars hu).1]
    obtain rfl := String.toList_inj.mp (List.append_inj' heq hlen).2
    exact Option.some.inj (ht.symm.trans hu)

/-- A job's own scopes do not contain the keys of the job. -/
theorem Store.keyBase_not_in_scope (text : String) :
    Text.startsWith (Store.keyBase j.definition j.id) (Store.keyScope j.definition j.id text)
      = false := by
  rw [Bool.eq_false_iff, ne_eq, Text.startsWith_iff, Store.keyScope_eq]
  intro h
  have hlen := h.length_le
  simp only [String.toList_append, List.length_append] at hlen
  have hslash : "/".toList.length = 1 := rfl
  omega

/-- Scopes that are apart share no key. -/
theorem Db.Apart.unique (h : db.Apart) (hwf : db.WF) (ha : a ∈ db.attempts) (hi : i ∈ db.jobs)
    (hai : a.jobID = i.id) (hb : b ∈ db.attempts) (hj : j ∈ db.jobs) (hbj : b.jobID = j.id)
    {key : String} (hka : InScope a i key) (hkb : InScope b j key) : a.id = b.id := by
  obtain ⟨t, ht, hkt⟩ := hka
  obtain ⟨u, hu, hku⟩ := hkb
  -- One scope within the other, in either order.
  have hnested : ∀ {a b i j t u}, a ∈ db.attempts → i ∈ db.jobs → j ∈ db.jobs → a.jobID = i.id →
      Uuid.parse t = some a.id → Uuid.parse u = some (AttemptRec.id b) →
      Text.startsWith (Store.keyScope (JobRec.definition j) j.id u)
        (Store.keyScope (JobRec.definition i) i.id t) = true → a.id = b.id := by
    intro a b i j t u ha hi hj hai ht hu hn
    rcases Store.keyScope_nested ht hu hn with hbase | heq
    · by_cases hij : i.id = j.id
      · obtain rfl := hwf.jobs.eq_of_key hi hj hij
        rw [Store.keyBase_not_in_scope] at hbase
        cases hbase
      · rw [h a ha i hi j hj hai hij t ht] at hbase
        cases hbase
    · exact heq
  rcases Text.prefix_total hkt hku with hn | hn
  · exact (hnested hb hj hi hbj hu ht hn).symm
  · exact hnested ha hi hj hai ht hu hn

/-- Jobs and attempts stay, so scopes that are apart have always been apart. -/
theorem Db.Apart.of_grows (h : db'.Apart) (hwf : db.WF) (hg : db.Grows db') : db.Apart := by
  intro a ha i hi j hj hai hij text htext
  obtain ⟨a', ha', hfa⟩ := hg.attempt (hwf.attempt_of_mem ha)
  obtain ⟨i', hi', hfi⟩ := hg.job (hwf.job_of_mem hi)
  obtain ⟨j', hj', hfj⟩ := hg.job (hwf.job_of_mem hj)
  have hid := AttemptRec.fixed_eq hfa
  have hii := JobRec.fixed_eq hfi
  have hjj := JobRec.fixed_eq hfj
  have := h a' (Db.mem_of_attempt? ha') i' (Db.mem_of_job? hi') j' (Db.mem_of_job? hj')
    (by rw [hid.2.1, hai, hii.1]) (by rwa [hii.1, hjj.1]) text (by rw [hid.1, htext])
  rwa [hii.1, hjj.1, hii.2.2.1, hjj.2.2.1] at this

end Scopes

/-! ## The scope of a stored artifact -/

/-- The artifact was reported by an attempt of its job, in the scope of the attempt. -/
def ArtifactRec.Scoped (db : Db) (x : ArtifactRec) : Prop :=
  ∃ a j, db.attempt? x.attemptID = some a ∧ db.job? x.jobID = some j ∧ a.jobID = x.jobID ∧
    InScope a j x.objectKey

section Stored

variable {P : Oracle → Prop} {s : Store} {db db' : Db} {c : Change}

theorem ArtifactRec.Scoped.mono {x : ArtifactRec} (h : x.Scoped db) (hg : db.Grows db') :
    x.Scoped db' := by
  obtain ⟨a, j, ha, hj, haj, text, htext, hkey⟩ := h
  obtain ⟨a', ha', hfa⟩ := hg.attempt ha
  obtain ⟨j', hj', hfj⟩ := hg.job hj
  have hid := AttemptRec.fixed_eq hfa
  have hjj := JobRec.fixed_eq hfj
  refine ⟨a', j', ha', hj', by rw [hid.2.1, haj], text, by rw [hid.1, htext], ?_⟩
  rw [hjj.2.2.1, hjj.1]
  exact hkey

/-- An effect leaves the artifacts or records one. -/
theorem Effect.artifacts (h : Effect P s db c db') :
    db'.artifacts = db.artifacts ∨ ∃ r a j x id kind o, Fenced P db r a j ∧
      Store.artifactOk (Store.keyScope j.definition j.id r.attemptID) x = true ∧
      db'.artifacts = db.artifacts ++ [x.newRow id j.id a.id kind o] := by
  cases h with
  | recorded hf _ hok _ _ _ _ => exact .inr ⟨_, _, _, _, _, _, _, hf, hok, rfl⟩
  | _ => exact .inl rfl

theorem Store.artifactOk_startsWith {scope : String} {x : Artifact}
    (h : Store.artifactOk scope x = true) : Text.startsWith x.objectKey scope = true := by
  simp only [Store.artifactOk, Bool.and_eq_true] at h
  exact h.1.1.1.1

theorem Effect.scoped (h : Effect P s db c db') (hdb : ∀ x ∈ db.artifacts, x.Scoped db) :
    ∀ x ∈ db'.artifacts, x.Scoped db' := by
  have hold : ∀ x ∈ db.artifacts, x.Scoped db' := fun x hx => (hdb x hx).mono h.grows
  rcases h.artifacts with heq | ⟨r, a, j, x, id, kind, o, hf, hok, heq⟩
  · rw [heq]
    exact hold
  · rw [heq]
    intro y hy
    rcases List.mem_append.mp hy with hy | hy
    · exact hold y hy
    · rw [List.mem_singleton.mp hy]
      have hnew : (x.newRow id j.id a.id kind o).Scoped db :=
        ⟨a, j, hf.attempt, hf.job_self, hf.jobID.symm, r.attemptID, hf.named,
          Store.artifactOk_startsWith hok⟩
      exact hnew.mono h.grows

theorem Reachable.scoped [Sha256] (h : Reachable db) : ∀ x ∈ db.artifacts, x.Scoped db :=
  (Reachable.inv (I := fun db => ∀ x ∈ db.artifacts, x.Scoped db) (by simp [Db.empty])
    (fun _ h => h) (fun _ hI he => he.scoped hI) h).2

end Stored

/-! ## The loop over the reported artifacts -/

/-- The methods whose requests list artifacts. -/
def Method.reports : Method → Bool
  | .reportProgress | .completeAttempt | .failAttempt => true
  | _ => false

theorem Artifact.newRow_artifact {x : Artifact} {id job attempt : Uuid} {kind : ArtifactKind}
    {o : Oracle} (h : ArtifactKind.parse x.kind = some kind) :
    (x.newRow id job attempt kind o).artifact = x := by
  simp [ArtifactRec.artifact, Artifact.newRow, ArtifactKind.text_of_parse h]

/-- What a report of the attempt `attempt` of the job `job` does to the artifacts:
the rows `new` are added for the entries whose keys are not stored, and every entry
is stored. -/
structure Recorded (old new : List ArtifactRec) (scope : String) (job attempt : Uuid)
    (xs : List Artifact) : Prop where
  owner : ∀ row ∈ new, row.jobID = job ∧ row.attemptID = attempt
  entries : new.map ArtifactRec.artifact
    = Table.fresh Artifact.objectKey (old.map ArtifactRec.objectKey) xs
  admitted : ∀ x ∈ xs, Store.artifactOk scope x = true
  stored : ∀ x ∈ xs, ∃ row ∈ old ++ new, row.artifact = x

section Reports

variable {P : Oracle → Prop} {s : Store} {db db' : Db}

theorem Recorded.skip {old new : List ArtifactRec} {scope : String} {job attempt : Uuid}
    {x : Artifact} {xs : List Artifact} {row : ArtifactRec} (h : Recorded old new scope job attempt xs)
    (hok : Store.artifactOk scope x = true) (hrow : row ∈ old) (hx : row.artifact = x) :
    Recorded old new scope job attempt (x :: xs) where
  owner := h.owner
  entries := by
    have hmem : x.objectKey ∈ old.map ArtifactRec.objectKey := by
      rw [← hx]
      exact List.mem_map_of_mem hrow
    rw [h.entries, Table.fresh, if_pos hmem]
  admitted := List.forall_mem_cons.mpr ⟨hok, h.admitted⟩
  stored := List.forall_mem_cons.mpr ⟨⟨row, List.mem_append_left _ hrow, hx⟩, h.stored⟩

theorem Recorded.insert {old new : List ArtifactRec} {scope : String} {job attempt : Uuid}
    {x : Artifact} {xs : List Artifact} {row : ArtifactRec}
    (h : Recorded (old ++ [row]) new scope job attempt xs) (hok : Store.artifactOk scope x = true)
    (hnew : x.objectKey ∉ old.map ArtifactRec.objectKey) (hx : row.artifact = x)
    (howner : row.jobID = job ∧ row.attemptID = attempt) :
    Recorded old (row :: new) scope job attempt (x :: xs) where
  owner := List.forall_mem_cons.mpr ⟨howner, h.owner⟩
  entries := by
    have hkey : row.objectKey = x.objectKey := by rw [← hx]; rfl
    rw [Table.fresh, if_neg hnew, List.map_cons, hx, h.entries]
    exact congrArg _ (Table.fresh_congr (fun k => by simp [hkey, or_comm]) xs)
  admitted := List.forall_mem_cons.mpr ⟨hok, h.admitted⟩
  stored := by
    rw [show old ++ row :: new = old ++ [row] ++ new by simp]
    exact List.forall_mem_cons.mpr ⟨⟨row, by simp, hx⟩, h.stored⟩

theorem recordArtifacts_recorded {scope : String} {job attempt : Uuid} {xs : List Artifact} {u : Unit}
    (h : Runs P (Store.recordArtifacts scope job attempt xs) db u db') :
    ∃ new, db' = { db with artifacts := db.artifacts ++ new } ∧
      Recorded db.artifacts new scope job attempt xs := by
  induction xs generalizing db with
  | nil =>
      obtain ⟨-, rfl⟩ := runs_done.mp h
      exact ⟨[], by simp, by simp, rfl, by simp, by simp⟩
  | cons x xs ih =>
      unfold Store.recordArtifacts at h
      split at h
      · exact absurd h not_runs_fail
      rename_i hok
      have hok : Store.artifactOk scope x = true := by simpa using hok
      obtain ⟨_, _, h⟩ := runs_read (fun _ => rfl) h
      cases hrow : db.artifactByKey? x.objectKey with
      | some row =>
          simp only [hrow, Option.map_some] at h
          split at h
          · exact absurd h not_runs_fail
          · rename_i hsame
            obtain ⟨new, rfl, hrec⟩ := ih h
            exact ⟨new, rfl, hrec.skip hok (Table.mem_of_find hrow) (not_not.mp hsame)⟩
      | none =>
          simp only [hrow, Option.map_none] at h
          obtain ⟨oid, _, h⟩ := runs_read (fun _ => rfl) h
          obtain ⟨o, kind, _, hkind, _, _, h⟩ := runs_insertArtifact h
          obtain ⟨new, rfl, hrec⟩ := ih h
          have hnew : x.objectKey ∉ db.artifacts.map ArtifactRec.objectKey := by
            simpa using Table.find_eq_none.mp hrow
          refine ⟨_, ?_, Recorded.insert hrec hok hnew (Artifact.newRow_artifact hkind) ⟨rfl, rfl⟩⟩
          simp [Db.apply]

/-- A report is made by a running attempt and records its artifacts. -/
theorem attemptBody_reports {m : Method} {r : Request} {a : AttemptRec} {j : JobRec} {o : Oracle}
    {res : Response} (hm : m.reports = true) (hf : Fenced P db r a j)
    (h : Runs P (s.attemptBody m r j.row a.id (a.check o)) db res db') :
    a.state = .running ∧ ∃ new, db'.artifacts = db.artifacts ++ new ∧
      Recorded db.artifacts new (Store.keyScope j.definition j.id r.attemptID) j.id a.id
        r.artifacts.elems := by
  cases m with
  | reportProgress =>
      obtain ⟨hrun, _, mid, hrec, h⟩ := report_recording h
      obtain ⟨new, rfl, hnew⟩ := recordArtifacts_recorded hrec
      obtain ⟨_, _, rfl⟩ := accept_runs h
      exact ⟨hrun, new, rfl, hnew⟩
  | completeAttempt =>
      obtain ⟨hrun, _, mid, hrec, h⟩ := report_recording h
      obtain ⟨new, rfl, hnew⟩ := recordArtifacts_recorded hrec
      dsimp only at h
      split at h
      · exact absurd h not_runs_fail
      · have hf' : Fenced P { db with artifacts := db.artifacts ++ new } r a j := { hf with }
        obtain ⟨_, _, _, _, _, _, rfl⟩ := finish_runs hf'.attempt hf'.job_self h
        exact ⟨hrun, new, rfl, hnew⟩
  | failAttempt =>
      obtain ⟨hrun, _, mid, hrec, h⟩ := report_recording h
      obtain ⟨new, rfl, hnew⟩ := recordArtifacts_recorded hrec
      have hf' : Fenced P { db with artifacts := db.artifacts ++ new } r a j := { hf with }
      obtain ⟨_, _, _, _, _, _, rfl⟩ := finish_runs hf'.attempt hf'.job_self h
      exact ⟨hrun, new, rfl, hnew⟩
  | _ => cases hm

theorem Method.onAttempt_of_reports {m : Method} (hm : m.reports = true) :
    m.onAttempt = true ∧ m ≠ .heartbeat := by
  cases m <;> first | exact ⟨rfl, by decide⟩ | cases hm

/-- A request about an attempt reaches `attempt` once the worker's row is touched. -/
theorem rpcBody_attempt {m : Method} {r : Request} {res : Response} (hm : m.onAttempt = true)
    (hid : m = .heartbeat → r.attemptID ≠ "") (h : Runs P (s.rpcBody m r) db res db') :
    ∃ w o, db.worker? r.workerID = some w ∧ Runs P (s.attempt m r)
      (db.applyAll [.putWorker { w with lastHeartbeatAt := Oracle.clock o 0 }]) res db' := by
  have hbody : Runs P (s.workerBody m r) db res db' := by
    cases m <;> first | exact h | cases hm
  obtain ⟨_, _, h⟩ := runs_read (fun _ => rfl) hbody
  rw [reread_self] at h
  cases hw : db.worker? r.workerID with
  | none =>
      rw [hw] at h
      exact absurd h not_runs_fail
  | some w =>
      rw [hw] at h
      dsimp only at h
      split at h
      · exact absurd h not_runs_fail
      obtain ⟨o, ho, h⟩ := runs_total (fun _ => rfl) h
      simp only [reread_self, hw, updateRow_some] at h
      refine ⟨w, o, rfl, ?_⟩
      cases m with
      | heartbeat =>
          dsimp only at h
          rwa [if_neg (hid rfl)] at h
      | startAttempt => exact h
      | reportProgress => exact h
      | completeAttempt => exact h
      | failAttempt => exact h
      | _ => cases hm

theorem rpcBody_reports {m : Method} {r : Request} {res : Response} (hm : m.reports = true)
    (h : Runs P (s.rpcBody m r) db res db') :
    ∃ a j new, Fenced P db r a j ∧ a.state = .running ∧ db'.artifacts = db.artifacts ++ new ∧
      Recorded db.artifacts new (Store.keyScope j.definition j.id r.attemptID) j.id a.id
        r.artifacts.elems := by
  obtain ⟨hattempt, hne⟩ := Method.onAttempt_of_reports hm
  obtain ⟨w, o, -, hattempt⟩ := rpcBody_attempt hattempt (fun heq => absurd heq hne) h
  obtain ⟨a, j, o', hf, hrep⟩ := attempt_fenced hattempt
  obtain ⟨hrun, new, hnew⟩ := attemptBody_reports hm hf hrep
  exact ⟨a, j, new, { hf with }, hrun, hnew⟩

/-- A report that is accepted and has no receipt. -/
theorem perform_reports [Sha256] {c : Call} {m : Method} {r : Request} {res : Result}
    (hop : c.op = .rpc m r) (hm : m.reports = true) (hdb : db.Sound)
    (hfresh : db.request? (Store.rpcScope m r) r.requestID = none)
    (h : perform c db = (.ok res, db')) :
    ∃ a j new, Fenced (fun _ => True) db r a j ∧ a.state = .running ∧
      db'.artifacts = db.artifacts ++ new ∧
      Recorded db.artifacts new (Store.keyScope j.definition j.id r.attemptID) j.id a.id
        r.artifacts.elems := by
  obtain ⟨response, rs, rs', mid, -, hbody, rfl⟩ :=
    perform_body (P := fun _ => True) hop (fun _ => trivial) hdb hfresh h
  obtain ⟨a, j, new, hf, hrun, hnew⟩ := rpcBody_reports hm hbody
  exact ⟨a, j, new, { hf with }, hrun, hnew⟩

end Reports

/-! ## Reports and attempts -/

/-- Every entry of the list is stored for the attempt `a`. -/
def Db.Records (db : Db) (a : AttemptRec) (xs : List Artifact) : Prop :=
  ∀ x ∈ xs, ∃ row ∈ db.artifacts, row.artifact = x ∧ row.jobID = a.jobID ∧ row.attemptID = a.id

section Records

variable {P : Oracle → Prop} {db db' : Db} {r : Request} {a : AttemptRec} {j : JobRec}
  {new : List ArtifactRec}

/-- The entries of a report are stored for the reporting attempt exactly if none of
their keys is stored for another attempt before. -/
theorem Recorded.records_iff (hsc : ∀ x ∈ db.artifacts, x.Scoped db) (hwf : db'.WF)
    (hf : Fenced P db r a j) (hart : db'.artifacts = db.artifacts ++ new)
    (h : Recorded db.artifacts new (Store.keyScope j.definition j.id r.attemptID) j.id a.id
      r.artifacts.elems) :
    db'.Records a r.artifacts.elems ↔
      ∀ row ∈ db.artifacts, row.objectKey ∈ r.artifacts.elems.map Artifact.objectKey →
        row.attemptID = a.id := by
  constructor
  · intro hrec row hrow hkey
    obtain ⟨x, hx, hxkey⟩ := List.mem_map.mp hkey
    obtain ⟨row', hrow', rfl, -, hattempt⟩ := hrec x hx
    have hmem : row ∈ db'.artifacts := hart ▸ List.mem_append_left _ hrow
    obtain rfl := hwf.objects.eq_of_key hmem hrow' hxkey.symm
    exact hattempt
  · intro hown x hx
    obtain ⟨row, hrow, hxrow⟩ := h.stored x hx
    refine ⟨row, hart ▸ hrow, hxrow, ?_⟩
    rcases List.mem_append.mp hrow with hold | hnew
    · have hid : row.attemptID = a.id := hown row hold (List.mem_map.mpr ⟨x, hx, by rw [← hxrow]; rfl⟩)
      obtain ⟨a', -, ha', -, hjob, -⟩ := hsc row hold
      rw [hid, hf.attempt] at ha'
      obtain rfl := Option.some.inj ha'
      exact ⟨hjob.symm, hid⟩
    · obtain ⟨hj, ha⟩ := h.owner row hnew
      exact ⟨hj.trans hf.jobID, ha⟩

/-- With scopes apart no reported key is stored for another attempt. -/
theorem Db.Apart.owns (hapart : db.Apart) (hwf : db.WF) (hsc : ∀ x ∈ db.artifacts, x.Scoped db)
    (hf : Fenced P db r a j)
    (hok : ∀ x ∈ r.artifacts.elems,
      Store.artifactOk (Store.keyScope j.definition j.id r.attemptID) x = true) :
    ∀ row ∈ db.artifacts, row.objectKey ∈ r.artifacts.elems.map Artifact.objectKey →
      row.attemptID = a.id := by
  intro row hrow hkey
  obtain ⟨x, hx, hxkey⟩ := List.mem_map.mp hkey
  obtain ⟨b, i, hb, hi, hbi, hin⟩ := hsc row hrow
  have hscope : InScope a j row.objectKey :=
    ⟨r.attemptID, hf.named, hxkey ▸ Store.artifactOk_startsWith (hok x hx)⟩
  rw [← Db.attempt?_id hb]
  exact hapart.unique hwf (Db.mem_of_attempt? hb) (Db.mem_of_job? hi) (hbi.trans (Db.job?_id hi).symm)
    (Db.mem_of_attempt? hf.attempt) (Db.mem_of_job? hf.job_self) hf.jobID.symm hin hscope

theorem Db.Records.mono {xs : List Artifact} {a' : AttemptRec} (h : db.Records a xs)
    (hg : db.Grows db') (hf : a'.fixed = a.fixed) : db'.Records a' xs := by
  intro x hx
  obtain ⟨row, hrow, hxrow, hjob, hattempt⟩ := h x hx
  have hid := AttemptRec.fixed_eq hf
  exact ⟨row, hg.artifacts.subset hrow, hxrow, hjob.trans hid.2.1.symm, hattempt.trans hid.1.symm⟩

end Records

section Runs

variable [Sha256]

/-- An accepted report was applied when it was accepted first. -/
theorem accepted_applied {pre : List Call} {c : Call} {m : Method} {r : Request}
    (honce : c.Once pre) (hm : m.reports = true)
    (hacc : c.Accepted (exec pre Db.empty) m r) :
    ∃ pre' d post a j new, pre ++ [c] = pre' ++ d :: post ∧
      Fenced (fun _ => True) (exec pre' Db.empty) r a j ∧
      (perform d (exec pre' Db.empty)).2.artifacts = (exec pre' Db.empty).artifacts ++ new ∧
      Recorded (exec pre' Db.empty).artifacts new (Store.keyScope j.definition j.id r.attemptID)
        j.id a.id r.artifacts.elems := by
  obtain ⟨hop, res, hres⟩ := hacc
  obtain ⟨pre', d, post, m', hsplit, hd, htext, hnone, res', hres'⟩ := accepted_origin honce hop hres
  have hsound := exec_sound pre' Db.sound_empty
  have hok : perform d (exec pre' Db.empty) = (.ok res', (perform d (exec pre' Db.empty)).2) :=
    Prod.ext hres' rfl
  obtain ⟨w, hs⟩ := perform_serves hd hsound hnone hok
  have hmm : m' = m := by
    refine Method.eq_of_text htext ?_ hs.known
    rintro name rfl
    cases hm
  obtain ⟨a, j, new, hf, -, hart, hnew⟩ := perform_reports hd (hmm ▸ hm) hsound hnone hok
  exact ⟨pre', d, post, a, j, new, hsplit, hf, hart, hnew⟩

/-- What comes after a call only adds to what it leaves. -/
theorem exec_grows_from (pre : List Call) (d : Call) (post : List Call) :
    (perform d (exec pre Db.empty)).2.Grows (exec (pre ++ d :: post) Db.empty) := by
  have hreach : Reachable (exec pre Db.empty) := ⟨pre, rfl⟩
  have hexec : exec (pre ++ d :: post) Db.empty = exec post (perform d (exec pre Db.empty)).2 := by
    rw [exec_append]
    rfl
  rw [hexec]
  exact (exec_settles (hreach.perform d) post).grows

/-- A report that is accepted with scopes apart, for the first time or again, is
recorded for its attempt. -/
theorem accepted_records {pre : List Call} {c : Call} {m : Method} {r : Request}
    (hsha : NoCollision (pre ++ [c])) (hm : m.reports = true)
    (hacc : c.Accepted (exec pre Db.empty) m r) (hapart : (exec (pre ++ [c]) Db.empty).Apart) :
    ∃ a, (exec (pre ++ [c]) Db.empty).attempt? a.id = some a ∧ Uuid.parse r.attemptID = some a.id ∧
      (exec (pre ++ [c]) Db.empty).Records a r.artifacts.elems := by
  obtain ⟨pre', d, post, a, j, new, hsplit, hf, hart, hnew⟩ := accepted_applied (hsha.once hacc.1) hm hacc
  have hsound := exec_sound pre' Db.sound_empty
  have hreach : Reachable (exec pre' Db.empty) := ⟨pre', rfl⟩
  have hgrows := exec_grows_from pre' d post
  rw [← hsplit] at hgrows
  have hstep := (exec_settles hreach [d]).grows
  have hbefore := hapart.of_grows hsound.wf (hstep.trans hgrows)
  have hrec := (hnew.records_iff hreach.scoped (exec_sound [d] hsound).wf hf hart).mpr
    (hbefore.owns hsound.wf hreach.scoped hf hnew.admitted)
  obtain ⟨a', ha', hfa⟩ := (hstep.trans hgrows).attempt hf.attempt
  have hid := (AttemptRec.fixed_eq hfa).1
  refine ⟨a', by rw [hid]; exact ha', by rw [hid]; exact hf.named, hrec.mono hgrows hfa⟩

end Runs

/-! ## A report -/

namespace Sample

/-- An output of the attempt. -/
def own : Artifact where
  objectKey := Store.keyScope job jobID attemptID.text ++ "f"
  contentType := "text/plain"
  sizeBytes := 1
  checksum := "0123456789abcdef0123456789abcdef0123456789abcdef0123456789abcdef"
  kind := "output"

/-- The attempt reports `own`. -/
def ownCall : Call :=
  ⟨server, .rpc .reportProgress { request "4" with artifacts := some [own] }, oracle 5000⟩

/-- A second job with keys of its own. -/
def apartJob : Job := { job with idempotencyKey := "k2", artifactPrefix := "other" }

def apartCall : Call := ⟨server, .submit [apartJob], oracle 4500⟩

end Sample

/-! ### A prefix that names another attempt -/

namespace Sample

/-- The key scope of the attempt of the first job as the prefix of a second one. -/
def innerJob : Job :=
  { job with idempotencyKey := "k2", artifactPrefix := jobID.text ++ "/" ++ attemptID.text }

def innerID : Uuid := Uuid.ID 4001

def innerAttemptID : Uuid := Uuid.ID 5006

/-- A request of the attempt of the second job. -/
def innerRequest (id : String) : Request :=
  { register with requestID := id, attemptID := innerAttemptID.text, leaseToken := (Uuid.ID 5007).text }

/-- A checkpoint in the scopes of both attempts. -/
def shared : Artifact where
  objectKey := Store.keyScope innerJob innerID innerAttemptID.text ++ "f"
  contentType := "application/json"
  sizeBytes := 1
  checksum := "0123456789abcdef0123456789abcdef0123456789abcdef0123456789abcdef"
  kind := "checkpoint"

/-- Both jobs are leased and started, and the second attempt reports `shared`. -/
def nested : List Call :=
  leased ++ [⟨server, .submit [innerJob], oracle 4000⟩,
    ⟨server, .rpc .leaseJob { register with requestID := "3" }, oracle 5000⟩,
    ⟨server, .rpc .startAttempt (request "4"), oracle 6000⟩,
    ⟨server, .rpc .startAttempt (innerRequest "5"), oracle 7000⟩,
    ⟨server, .rpc .reportProgress { innerRequest "6" with artifacts := some [shared] }, oracle 8000⟩]

/-- What `nested` leaves. -/
def nestedDb : Db where
  jobs := [{ jobRow with state := .running, updatedAt := 6080 },
    { innerJob.newRow innerID (oracle 4000 2) with state := .running, updatedAt := 7080 }]
  workers := [{ worker with lastHeartbeatAt := 8030 }]
  attempts := [attempt.start 6070,
    (newAttempt innerAttemptID innerID 1 "w" (Uuid.ID 5007) 5 30 (oracle 5000 8)).start 7070]
  artifacts := [shared.newRow (Uuid.ID 8008) innerID innerAttemptID .checkpoint (oracle 8000 9)]
  events := leasedDb.events ++ [⟨3, innerID, none, .submitted, .empty, 4040⟩,
    ⟨4, innerID, some innerAttemptID, .leased, .leased "3" "w" 1, 5110⟩,
    ⟨5, jobID, some attemptID, .method .startAttempt, (request "4").report, 6090⟩,
    ⟨6, innerID, some innerAttemptID, .method .startAttempt, (innerRequest "5").report, 7090⟩,
    ⟨7, innerID, some innerAttemptID, .method .reportProgress, (innerRequest "6").report, 8100⟩]
  requests := leasedDb.requests ++ [⟨"rpc:LeaseJob:w", "3", "",
      some (.lease ⟨{ (innerJob.newRow innerID (oracle 4000 2)).row with state := .leased },
        innerAttemptID, 1, Uuid.ID 5007, 5005080, 5083, none⟩), 5000⟩,
    ⟨"rpc:StartAttempt:w", "4", "", some .accepted, 6000⟩,
    ⟨"rpc:StartAttempt:w", "5", "", some .accepted, 7000⟩,
    ⟨"rpc:ReportProgress:w", "6", "", some .accepted, 8000⟩]

/-- What the submission of the second job leaves. -/
def innerSubmittedDb : Db :=
  { leasedDb with
    jobs := [jobRow, innerJob.newRow innerID (oracle 4000 2)]
    events := nestedDb.events.take 3 }

/-- What it leaves after both leases. -/
def nestedLeasedDb : Db :=
  { nestedDb with
    jobs := [jobRow, { innerJob.newRow innerID (oracle 4000 2) with state := .leased, updatedAt := 5090 }]
    workers := [{ worker with lastHeartbeatAt := 5030 }]
    attempts := [attempt, newAttempt innerAttemptID innerID 1 "w" (Uuid.ID 5007) 5 30 (oracle 5000 8)]
    artifacts := []
    events := nestedDb.events.take 4
    requests := nestedDb.requests.take 3 }

/-- What it leaves before the report. -/
def nestedStartedDb : Db :=
  { nestedDb with
    workers := [{ worker with lastHeartbeatAt := 7030 }]
    artifacts := []
    events := nestedDb.events.take 6
    requests := nestedDb.requests.take 5 }

theorem inner_submit : @exec digest ((nested.drop 3).take 1) leasedDb = innerSubmittedDb := by
  decide +kernel

theorem nested_leases : @exec digest ((nested.drop 4).take 1) innerSubmittedDb = nestedLeasedDb := by
  decide +kernel

theorem nested_starts : @exec digest ((nested.drop 5).take 2) nestedLeasedDb = nestedStartedDb := by
  decide +kernel

theorem nested_report : @exec digest (nested.drop 7) nestedStartedDb = nestedDb := by decide +kernel

theorem nested_exec : @exec digest nested Db.empty = nestedDb := by
  rw [← nested_report, ← nested_starts, ← nested_leases, ← inner_submit, ← leased_exec]
  simp only [← @exec_append digest]
  rfl

/-- The first attempt reports `shared`. -/
def sharedCall : Call :=
  ⟨server, .rpc .reportProgress { request "7" with artifacts := some [shared] }, oracle 9000⟩

end Sample

end Rungrid
