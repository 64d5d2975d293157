-- SUMMARY: The object keys artifacts are stored under, and how the spelling of an attempt id in a report decides them.
import Rungrid.Lifecycle.Checkpoints

/-!
# Object keys

`attempt` builds the beginning of an object key from the job id the database returns
and the attempt id of the request. A request may spell that id in upper case: it
passes `idPattern`, the row of the attempt is found, and the fence does not compare
it. The key is then stored with a spelling that the stored id does not have.
-/

namespace Rungrid

/-- The attempt of the row is one of the row's job, and the object key is in the key
scope of the attempt, with its id spelled `text`. -/
def ArtifactRec.FiledUnder (db : Db) (x : ArtifactRec) (text : String) : Prop :=
  ∃ a j, db.attempt? x.attemptID = some a ∧ db.job? x.jobID = some j ∧ a.jobID = x.jobID ∧
    Text.startsWith x.objectKey (Store.keyScope j.definition x.jobID text) = true ∧
    Text.contains x.objectKey ".." = false

/-- A report that lists artifacts spells the id of the attempt as the database does. -/
def Call.SpellsAsStored (c : Call) : Prop :=
  ∀ m r id, c.op = .rpc m r → m.reports = true → r.artifacts.elems ≠ [] →
    Uuid.parse r.attemptID = some id → r.attemptID = id.text

/-! ## Spellings -/

/-- A key is in the key scope of one spelling only. -/
theorem Store.keyScope_spelling {key t u : String} {definition : Job} {job : Uuid}
    (hlen : t.toList.length = u.toList.length)
    (ht : Text.startsWith key (Store.keyScope definition job t) = true)
    (hu : Text.startsWith key (Store.keyScope definition job u) = true) : t = u := by
  rw [Text.startsWith_iff, Store.keyScope_eq] at ht hu
  simp only [String.toList_append] at ht hu
  have hsize : ((Store.keyBase definition job).toList ++ t.toList ++ "/".toList).length
      = ((Store.keyBase definition job).toList ++ u.toList ++ "/".toList).length := by
    simp [hlen]
  have heq := (List.prefix_of_prefix_length_le ht hu (Nat.le_of_eq hsize)).eq_of_length hsize
  have hpaths := (List.append_inj' heq rfl).1
  exact String.toList_inj.mp (List.append_cancel_left hpaths)

theorem Store.artifactOk_contains {scope : String} {x : Artifact}
    (h : Store.artifactOk scope x = true) : Text.contains x.objectKey ".." = false := by
  simp only [Store.artifactOk, Bool.and_eq_true, Bool.not_eq_true'] at h
  exact h.1.1.1.2

section Filed

variable {db db' : Db} {x : ArtifactRec} {t u : String}

theorem ArtifactRec.FiledUnder.mono (h : x.FiledUnder db t) (hg : db.Grows db') :
    x.FiledUnder db' t := by
  obtain ⟨a, j, ha, hj, haj, hkey, hdots⟩ := h
  obtain ⟨a', ha', hfa⟩ := hg.attempt ha
  obtain ⟨j', hj', hfj⟩ := hg.job hj
  refine ⟨a', j', ha', hj', ?_, ?_, hdots⟩
  · rw [(AttemptRec.fixed_eq hfa).2.1, haj]
  · rw [(JobRec.fixed_eq hfj).2.2.1]
    exact hkey

/-- Of the spellings of its attempt, a row is filed under one. -/
theorem ArtifactRec.FiledUnder.iff_eq (h : x.FiledUnder db t) (ht : Uuid.parse t = some x.attemptID)
    (hu : Uuid.parse u = some x.attemptID) : x.FiledUnder db u ↔ t = u := by
  constructor
  · rintro ⟨-, j', -, hj', -, hkey', -⟩
    obtain ⟨-, j, -, hj, -, hkey, -⟩ := h
    obtain rfl := Option.some.inj (hj.symm.trans hj')
    have hlen : t.toList.length = u.toList.length := by
      rw [(Uuid.parse_chars ht).1, (Uuid.parse_chars hu).1]
    exact Store.keyScope_spelling hlen hkey hkey'
  · rintro rfl
    exact h

end Filed

/-! ## The report of a row -/

section Origin

variable [Sha256]

/-- What a run knows about the report that stored a row. -/
structure ReportedBy (x : ArtifactRec) (pre : List Call) (c : Call) (m : Method) (r : Request) :
    Prop where
  op : c.op = .rpc m r
  reports : m.reports = true
  applied : c.applied (exec pre Db.empty) = true
  attempt : Uuid.parse r.attemptID = some x.attemptID
  entry : x.artifact ∈ r.artifacts.elems
  filed : x.FiledUnder (exec pre Db.empty) r.attemptID

/-- Every row was stored by a report. -/
theorem artifact_reported {cs : List Call} {x : ArtifactRec}
    (h : x ∈ (exec cs Db.empty).artifacts) :
    ∃ pre c post m r, cs = pre ++ c :: post ∧ ReportedBy x pre c m r := by
  have hempty : x ∉ Db.empty.artifacts := List.not_mem_nil
  obtain ⟨pre, c, post, res, rfl, hbefore, hafter, hres⟩ :=
    exec_origin (D := fun db => x ∈ db.artifacts) hempty h
  have hsound := exec_sound pre Db.sound_empty
  by_cases hop : ∀ m r, c.op = .rpc m r → m.reports = false
  · rw [perform_artifacts_eq hsound hop] at hafter
    exact absurd hafter hbefore
  push Not at hop
  obtain ⟨m, r, hop, hm⟩ := hop
  have hm : m.reports = true := by simpa using hm
  -- A replay or a rejected call would have left the row out.
  have happ : c.applied (exec pre Db.empty) = true := by
    by_contra happ
    rw [(perform_unapplied hsound (by simpa using happ)).1] at hafter
    exact hbefore hafter
  obtain ⟨_, -, hfresh⟩ := Call.applied_ok happ
  have hnone : (exec pre Db.empty).request? (Store.rpcScope m r) r.requestID = none := by
    simpa [Op.fresh, hop, Op.key] using hfresh
  obtain ⟨a, j, new, hf, -, hart, hnew⟩ := perform_reports hop hm hsound hnone (Prod.ext hres rfl)
  rw [hart, List.mem_append] at hafter
  have hrow : x ∈ new := hafter.resolve_left hbefore
  obtain ⟨hjob, hattempt⟩ := hnew.owner x hrow
  have hentry : x.artifact ∈ r.artifacts.elems := by
    have hmem := List.mem_map_of_mem (f := ArtifactRec.artifact) hrow
    rw [hnew.entries] at hmem
    exact (Table.fresh_sublist _ _).subset hmem
  have hscope := Store.artifactOk_startsWith (hnew.admitted _ hentry)
  have hdots := Store.artifactOk_contains (hnew.admitted _ hentry)
  refine ⟨pre, c, post, m, r, rfl, hop, hm, happ, ?_, hentry, a, j, ?_, ?_, ?_, ?_, hdots⟩
  · rw [hf.named, hattempt]
  · rw [hattempt]
    exact hf.attempt
  · rw [hjob]
    exact hf.job_self
  · rw [hjob, hf.jobID]
  · rw [hjob]
    exact hscope

end Origin

/-- Every stored artifact is filed under the spelling its report has for the attempt,
so it is filed under the stored id exactly if the report spells it as the database
does. In a run whose reports all do, every artifact is. -/
theorem artifacts_scoped [Sha256] (cs : List Call) :
    (∀ x ∈ (exec cs Db.empty).artifacts, ∃ pre c post m r, cs = pre ++ c :: post ∧
      ReportedBy x pre c m r ∧ x.FiledUnder (exec cs Db.empty) r.attemptID ∧
      (x.FiledUnder (exec cs Db.empty) x.attemptID.text ↔ r.attemptID = x.attemptID.text)) ∧
    ((∀ c ∈ cs, c.SpellsAsStored) →
      ∀ x ∈ (exec cs Db.empty).artifacts, x.FiledUnder (exec cs Db.empty) x.attemptID.text) := by
  have hreported : ∀ x ∈ (exec cs Db.empty).artifacts, ∃ pre c post m r, cs = pre ++ c :: post ∧
      ReportedBy x pre c m r ∧ x.FiledUnder (exec cs Db.empty) r.attemptID ∧
      (x.FiledUnder (exec cs Db.empty) x.attemptID.text ↔ r.attemptID = x.attemptID.text) := by
    intro x hx
    obtain ⟨pre, c, post, m, r, rfl, hrep⟩ := artifact_reported hx
    have hreach : Reachable (exec pre Db.empty) := ⟨pre, rfl⟩
    have hfiled : x.FiledUnder (exec (pre ++ c :: post) Db.empty) r.attemptID := by
      rw [exec_append]
      exact hrep.filed.mono (exec_settles hreach (c :: post)).grows
    exact ⟨pre, c, post, m, r, rfl, hrep, hfiled,
      hfiled.iff_eq hrep.attempt (Uuid.parse_text x.attemptID)⟩
  refine ⟨hreported, fun hcs x hx => ?_⟩
  obtain ⟨pre, c, post, m, r, rfl, hrep, -, hiff⟩ := hreported x hx
  have hne : r.artifacts.elems ≠ [] := List.ne_nil_of_mem hrep.entry
  exact hiff.mpr (hcs c (by simp) m r x.attemptID hrep.op hrep.reports hne hrep.attempt)

namespace Sample

/-- The attempt reports `own`. -/
def ownRun : List Call := leased ++ [startCall] ++ [ownCall]

theorem ownRun_spells : ∀ c ∈ ownRun, c.SpellsAsStored := by
  intro c hc m r id hop hm _ hparse
  simp only [ownRun, leased, List.cons_append, List.nil_append, List.mem_cons, List.not_mem_nil,
    or_false] at hc
  rcases hc with rfl | rfl | rfl | rfl | rfl
  · cases hop
  · cases hop; cases hm
  · cases hop; cases hm
  · cases hop; cases hm
  · cases hop
    exact congrArg Uuid.text (Option.some.inj ((Uuid.parse_text attemptID).symm.trans hparse))

end Sample

/-- The report of the sample run is filed under the stored id. -/
theorem artifacts_scoped_sample :
    ∃ x ∈ (@exec Sample.digest Sample.ownRun Db.empty).artifacts, x.artifact = Sample.own ∧
      x.FiledUnder (@exec Sample.digest Sample.ownRun Db.empty) x.attemptID.text := by
  have hrow : ∃ x ∈ (@exec Sample.digest Sample.ownRun Db.empty).artifacts,
      x.artifact = Sample.own := by
    rw [Sample.ownRun, @exec_concat Sample.digest, Sample.started_exec]
    decide +kernel
  obtain ⟨x, hx, hown⟩ := hrow
  exact ⟨x, hx, hown, (@artifacts_scoped Sample.digest Sample.ownRun).2 Sample.ownRun_spells x hx⟩

namespace Sample

/-- The id of the attempt in upper case. -/
def upperID : String := "00000000-0000-4000-8000-000000000BBE"

def upper : Artifact := { own with objectKey := Store.keyScope job jobID upperID ++ "f" }

/-- The attempt reports `upper`. -/
def upperCall : Call :=
  ⟨server, .rpc .reportProgress { request "4" with attemptID := upperID, artifacts := some [upper] },
    oracle 5000⟩

end Sample

/-- A report that spells the id of the attempt in upper case passes `idPattern` and the
fence. Its artifact is stored for the attempt with a key that does not start with the
stored id. -/
theorem upper_case_misfiled :
    Uuid.idPattern Sample.upperID = true ∧
    (@perform Sample.digest Sample.upperCall
      (@exec Sample.digest (Sample.leased ++ [Sample.startCall]) Db.empty)).1
      = .ok (.response .accepted) ∧
    ∃ x ∈ (@exec Sample.digest (Sample.leased ++ [Sample.startCall] ++ [Sample.upperCall])
      Db.empty).artifacts, x.attemptID = Sample.attemptID ∧
      ¬ x.FiledUnder (@exec Sample.digest
        (Sample.leased ++ [Sample.startCall] ++ [Sample.upperCall]) Db.empty) x.attemptID.text := by
  rw [@exec_concat Sample.digest (Sample.leased ++ [Sample.startCall]), Sample.started_exec]
  have hreport : (@perform Sample.digest Sample.upperCall Sample.startedDb).1
        = .ok (.response .accepted) ∧
      ∃ x ∈ (@perform Sample.digest Sample.upperCall Sample.startedDb).2.artifacts,
        x.attemptID = Sample.attemptID ∧
        ((@perform Sample.digest Sample.upperCall Sample.startedDb).2.job? x.jobID).all (fun j =>
          !Text.startsWith x.objectKey (Store.keyScope j.definition x.jobID x.attemptID.text)) = true := by
    decide +kernel
  obtain ⟨haccepted, x, hx, hid, hkey⟩ := hreport
  refine ⟨by decide +kernel, haccepted, x, hx, hid, ?_⟩
  rintro ⟨a, j, -, hj, -, hstart, -⟩
  rw [hj] at hkey
  simp [hstart] at hkey

end Rungrid
