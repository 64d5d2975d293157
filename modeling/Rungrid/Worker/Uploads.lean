-- SUMMARY: A completed attempt has exactly one artifact row for each checkpoint, for the log and for each output.
import Rungrid.Worker.Execute
import Rungrid.Worker.Protocol

/-!
# The artifacts of a completed attempt

The executions of the fleet follow `execute`: the requests that are sent for an execution
are those of a run of the script, and what has returned in the run was answered by the
server. If the server has accepted `CompleteAttempt`, then every report before it has
returned, so it was accepted as well, and the rows of the attempt are the entries of the
reports.

The rows of two attempts are kept apart by their keys, which end in the attempt, the kind,
and the identifier and the name of the file.
-/

namespace Rungrid

/-- What stands before and after the last occurrence of a character. -/
theorem Text.append_cons_inj {α : Type} {c : α} {x y a b : List α} (hx : c ∉ x) (hy : c ∉ y)
    (h : a ++ c :: x = b ++ c :: y) : a = b ∧ x = y := by
  rcases List.append_eq_append_iff.mp h with ⟨t, rfl, ht⟩ | ⟨t, rfl, ht⟩
  · cases t with
    | nil => exact ⟨(List.append_nil a).symm, (List.cons.inj ht).2⟩
    | cons d t => exact absurd ((List.cons.inj ht).2 ▸ List.mem_append_right t List.mem_cons_self) hx
  · cases t with
    | nil => exact ⟨List.append_nil b, (List.cons.inj ht).2.symm⟩
    | cons d t => exact absurd ((List.cons.inj ht).2 ▸ List.mem_append_right t List.mem_cons_self) hy

namespace Worker

open Dumps (Str)

/-! ## Keys -/

theorem uuid_no_slash (u : Uuid) : '/' ∉ u.text.toList := by
  intro h
  rcases (Uuid.fits_chars (Uuid.idPattern_text u)).2 '/' h with hx | hx
  · exact absurd hx (by decide)
  · cases hx

/-- The name of a file has no slash. -/
theorem encode_no_slash {file : File} {name : String} (h : Dumps.encode file.name = some name) :
    '/' ∉ name.toList := by
  intro hslash
  have hmem : (⟨'/'.toNat, Dumps.toNat_lt '/'⟩ : Dumps.CodePoint) ∈ file.name := by
    rw [Dumps.encode_eq_some.mp h]
    exact List.mem_map_of_mem hslash
  exact (file.named.2.2.2 _ hmem).1 rfl

section Keys

variable [Hashlib]

/-- A key ends in the attempt, the kind, and the identifier and the name of the file. -/
theorem entryOf_key (l : Lease) (kind : ArtifactKind) (u : Uuid) (name : String) (content : List UInt8) :
    ∃ base, (entryOf l kind u name content).objectKey.toList
      = ((base ++ '/' :: l.attemptID.text.toList) ++ '/' :: kind.text.toList) ++
        '/' :: (u.text.toList ++ '-' :: name.toList) := by
  obtain ⟨start, hscope⟩ : ∃ start : String, Store.keyScope l.job.definition l.job.id l.attemptID.text
      = start ++ "/" ++ l.attemptID.text ++ "/" := ⟨_, rfl⟩
  refine ⟨start.toList, ?_⟩
  simp [entryOf, hscope]

/-- So the key tells the attempt and the identifier. -/
theorem upload_key {l l' : Lease} {kind kind' : ArtifactKind} {u u' : Uuid} {f f' : File} {a a' : Artifact}
    (h : upload l kind u f = some a) (h' : upload l' kind' u' f' = some a')
    (hkey : a.objectKey = a'.objectKey) : l.attemptID = l'.attemptID ∧ u = u' := by
  obtain ⟨name, hname, rfl⟩ := upload_eq_some.mp h
  obtain ⟨name', hname', rfl⟩ := upload_eq_some.mp h'
  obtain ⟨base, hbase⟩ := entryOf_key l kind u name f.content
  obtain ⟨base', hbase'⟩ := entryOf_key l' kind' u' name' f'.content
  have hkinds : ∀ kind : ArtifactKind, '/' ∉ kind.text.toList := by
    intro kind
    cases kind <;> decide
  have hlast : ∀ (u : Uuid) (name : String), '/' ∉ name.toList →
      '/' ∉ u.text.toList ++ '-' :: name.toList := by
    intro u name hname hmem
    rcases List.mem_append.mp hmem with hmem | hmem
    · exact uuid_no_slash u hmem
    · rcases List.mem_cons.mp hmem with hmem | hmem
      · exact absurd hmem (by decide)
      · exact hname hmem
  rw [hkey, hbase'] at hbase
  obtain ⟨hdirs, hfile⟩ := Text.append_cons_inj (hlast u' name' (encode_no_slash hname'))
    (hlast u name (encode_no_slash hname)) hbase
  obtain ⟨hattempts, -⟩ := Text.append_cons_inj (hkinds kind') (hkinds kind) hdirs
  obtain ⟨-, hattempt⟩ := Text.append_cons_inj (uuid_no_slash _) (uuid_no_slash _) hattempts
  have hunique := List.append_inj_left hfile (by rw [Uuid.text_length, Uuid.text_length])
  exact ⟨(Uuid.text_injective (String.toList_inj.mp hattempt)).symm,
    (Uuid.text_injective (String.toList_inj.mp hunique)).symm⟩

end Keys

/-! ## Answered reports -/

section Served

variable [Sha256] [Hashlib] {s s' : Fleet} {C : Fleet → Label → Prop}

/-- What was answered for executions was sent, and the entries of answered reports are
stored. -/
structure Fleet.Served (s : Fleet) : Prop where
  sent : ∀ op res, (op, res) ∈ s.answers → ofExecute op = true → op ∈ s.sent
  stored : ∀ r res, (.rpc .reportProgress r, res) ∈ s.answers → ∀ x ∈ r.artifacts.elems,
    ∃ row ∈ s.db.artifacts, row.artifact = x

omit [Hashlib] in
/-- An answered report has stored its entries. -/
theorem answer_stored {c : Call} {db : Db} {r : Request} {res : Response} (h : Reachable db)
    (hmem : (.rpc .reportProgress r, res) ∈ answer c db) {x : Artifact} (hx : x ∈ r.artifacts.elems) :
    ∃ row ∈ (perform c db).2.artifacts, row.artifact = x := by
  obtain ⟨hop, hres, happ⟩ := mem_answer.mp hmem
  obtain ⟨_, -, hfresh⟩ := Call.applied_ok happ
  have hnone : db.request? (Store.rpcScope .reportProgress r) r.requestID = none := by
    simpa [Op.fresh, ← hop, Op.key] using hfresh
  obtain ⟨a, j, new, -, -, hart, hnew⟩ := perform_reports hop.symm rfl h.logged.1 hnone
    (Prod.ext hres rfl : perform c db = (.ok (.response res), (perform c db).2))
  rw [hart]
  exact hnew.stored x hx

theorem Fleet.Reached.served (h : Fleet.Reached C s) : s.Served := by
  induction h with
  | initial =>
      refine ⟨fun _ _ h => ?_, fun _ _ h => ?_⟩
      · cases h
      · cases h
  | @step s s' _ hreached _ hstep ih =>
      cases hstep with
      | @serve c hsent _ =>
          have hreach := hreached.sound.reach
          refine ⟨fun op res hmem hop => ?_, fun r res hmem x hx => ?_⟩
          · rcases List.mem_append.mp hmem with hmem | hmem
            · exact ih.sent op res hmem hop
            · obtain ⟨rfl, -⟩ := mem_answer.mp hmem
              exact hsent hop
          · rcases List.mem_append.mp hmem with hmem | hmem
            · obtain ⟨row, hrow, heq⟩ := ih.stored r res hmem x hx
              exact ⟨row, (perform_settles hreach c).grows.artifacts.subset hrow, heq⟩
            · exact answer_stored hreach hmem hx
      | begin _ _ => exact ⟨ih.sent, ih.stored⟩
      | move _ _ =>
          exact ⟨fun op res hmem hop => List.mem_append_left _ (ih.sent op res hmem hop), ih.stored⟩

omit [Hashlib] in
/-- The answer to a call of a run. -/
theorem Fleet.mem_after {pre post : List Call} {c : Call} {res : Response} {execs : List Exec}
    {sent : List Op} (hres : (perform c (exec pre Db.empty)).1 = .ok (.response res))
    (hfresh : c.op.fresh (exec pre Db.empty) = true) :
    (c.op, res) ∈ (Fleet.after (pre ++ c :: post) execs sent).answers := by
  have happ : c.applied (exec pre Db.empty) = true := by
    rw [Call.applied, hres, hfresh]
    rfl
  rw [Fleet.after, Machine.trace_append, List.flatMap_append]
  exact List.mem_append_right _ (List.mem_append_left _ (mem_answer.mpr ⟨rfl, hres, happ⟩))

end Served

/-! ## Executions that follow the script -/

/-- The request has the fields of the payload. -/
def Payload.In (p : Payload) (r : Request) : Prop :=
  r.artifacts = p.request.artifacts ∧ r.logs = p.request.logs ∧ r.exitCode = p.request.exitCode ∧
    r.reason = p.request.reason

section Follows

variable [Hashlib]

/-- The requests sent for the execution are the calls of the run `τ` of `execute`, and those
that have returned were answered. -/
structure Follows (s : Fleet) (e : Exec) (τ : Execute.Trace e.lease) : Prop where
  sent : ∀ m r, .rpc m r ∈ s.sent → e.Names r → ∃ p x, ⟨.call m p, x⟩ ∈ τ ∧ p.In r
  answered : ∀ m p, ⟨.call m p, some ()⟩ ∈ τ → ∃ r res, (.rpc m r, res) ∈ s.answers ∧ e.Names r ∧ p.In r

/-- The names of the checkpoint files: `*.json`. -/
def Left.published (left : Left) : List Str :=
  (left.checkpoints.map File.name).filter (fun name => str ".json" <:+ name)

/-- The directories are stable: a listing has no name twice, published checkpoints are not
removed, and the last listing, after the end of the command, has what the command leaves. -/
structure Left.Stable {l : Lease} (left : Left) (τ : Execute.Trace l) : Prop where
  distinct : ∀ listing ∈ Execute.listings τ, (listing.map File.name).Nodup
  kept : ∀ listing ∈ Execute.listings τ, ∀ f ∈ listing, f.name ∈ left.published
  last : ∀ listing, (Execute.listings τ).getLast? = some listing →
    ∀ name ∈ left.published, name ∈ listing.map File.name

/-- The file is a regular file of the output directory. -/
def Left.IsOutput (left : Left) (path : List FileName) (f : File) : Prop :=
  ∃ dir name content, path = dir ++ [name] ∧ f = .of name content ∧ IsFile left.outputs path content

/-- The checkpoints that are uploaded are the published ones. -/
theorem Left.Stable.published {l : Lease} {left : Left} {τ : Execute.Trace l} (h : left.Stable τ)
    {files : List File} (hfinished : Execute.Finished left files τ) :
    (files.map File.name).Perm left.published := by
  refine (List.perm_ext_iff_of_nodup (hfinished.nodup h.distinct) (left.names.filter _)).mpr
    fun name => ⟨fun hname => ?_, fun hname => ?_⟩
  · obtain ⟨f, hf, rfl⟩ := List.mem_map.mp hname
    obtain ⟨listing, hlisting, hf⟩ := hfinished.found f hf
    exact h.kept listing hlisting f hf
  · obtain ⟨listing, hlast⟩ : ∃ listing, (Execute.listings τ).getLast? = some listing :=
      ⟨_, List.getLast?_eq_some_getLast hfinished.listed⟩
    obtain ⟨f, hf, rfl⟩ := List.mem_map.mp (h.last listing hlast name hname)
    exact hfinished.covers listing (List.mem_of_getLast? hlast) f hf

variable [Sha256] {s : Fleet} {e : Exec} {τ : Execute.Trace e.lease} {C : Fleet → Label → Prop}

/-- An execution of which `CompleteAttempt` was accepted has called it. -/
theorem Follows.completes (h : Follows s e τ) (hs : Fleet.Reached C s) {r : Request} {res : Response}
    (hnames : e.Names r) (hans : (.rpc .completeAttempt r, res) ∈ s.answers) : Execute.Completes τ := by
  obtain ⟨p, x, hmem, -⟩ := h.sent _ _ (hs.served.sent _ _ hans rfl) hnames
  exact ⟨p, x, hmem⟩

/-- A row of the attempt was reported in the run. -/
theorem Follows.reported (h : Follows s e τ) (hs : Fleet.Reached C s) (he : e ∈ s.execs) {row : ArtifactRec}
    (hrow : row ∈ s.db.artifacts) (hid : row.attemptID = e.lease.attemptID) :
    row.artifact ∈ Execute.reported τ := by
  have hsound := hs.sound
  obtain ⟨r, res, hsent, -, hmem, hparse⟩ := hsound.rows row hrow
  obtain ⟨e', he', hnames, -⟩ := hsound.reports r hsent
  have hsame : e'.lease.attemptID = e.lease.attemptID := by
    rw [hnames.1, Uuid.parse_text, hid] at hparse
    exact Option.some.inj hparse
  obtain rfl := hsound.keyed.eq_of_key he' he hsame
  obtain ⟨p, x, hcall, hin⟩ := h.sent _ _ hsent hnames
  rw [hin.1] at hmem
  exact List.mem_flatMap.mpr ⟨_, hcall, hmem⟩

/-- What a report of the run that has returned carries is stored, as a row of the
attempt. -/
theorem Follows.stored (h : Follows s e τ) (hs : Fleet.Reached C s) {p : Payload}
    (hcall : ⟨.call .reportProgress p, some ()⟩ ∈ τ) {x : Artifact} (hx : x ∈ p.request.artifacts.elems) :
    ∃ row ∈ s.db.artifacts, row.attemptID = e.lease.attemptID ∧ row.artifact = x := by
  have hsound := hs.sound
  obtain ⟨r, res, hans, hnames, hin⟩ := h.answered _ _ hcall
  rw [← hin.1] at hx
  obtain ⟨row, hrow, rfl⟩ := hs.served.stored r res hans x hx
  refine ⟨row, hrow, ?_, rfl⟩
  -- The key has the attempt of every report the row can come from.
  obtain ⟨e₁, -, hnames₁, hall₁⟩ := hsound.reports r (hs.served.sent _ _ hans rfl)
  obtain ⟨kind, unique, f, hup, -⟩ := hall₁ _ hx
  obtain ⟨r₂, res₂, hsent₂, -, hmem₂, hparse⟩ := hsound.rows row hrow
  obtain ⟨e₂, -, hnames₂, hall₂⟩ := hsound.reports r₂ hsent₂
  obtain ⟨kind₂, unique₂, f₂, hup₂, -⟩ := hall₂ _ hmem₂
  have hsame := (upload_key hup hup₂ rfl).1
  rw [hnames₂.1, Uuid.parse_text, ← hsame] at hparse
  rw [← Option.some.inj hparse]
  exact Uuid.text_injective (hnames₁.1.symm.trans hnames.1)

omit [Sha256] in
/-- Uploads with different UUIDs have different entries. -/
theorem entries_nodup {l : Lease} {ps : List (Execute.Put l)} (h : (ps.map Execute.Put.unique).Nodup) :
    (ps.map Execute.Put.entry).Nodup := by
  refine List.Nodup.map_on (fun p hp q hq heq => ?_) (List.Nodup.of_map _ h)
  have hunique := (upload_key p.uploads q.uploads (congrArg Artifact.objectKey heq)).2
  exact List.inj_on_of_nodup_map h hp hq hunique

/-- The rows of an attempt have different entries. -/
theorem Fleet.Reached.rows_nodup (hs : Fleet.Reached C s) (id : Uuid) :
    ((s.db.artifacts.filter (·.attemptID = id)).map ArtifactRec.artifact).Nodup := by
  have hkeys : (((s.db.artifacts.filter (·.attemptID = id)).map ArtifactRec.artifact).map
      Artifact.objectKey).Nodup := by
    rw [List.map_map]
    exact List.Nodup.sublist (List.filter_sublist.map _) hs.sound.reach.logged.1.wf.objects
  exact hkeys.of_map

/-- If all reports of the run have returned, the rows of the attempt are what it has
reported. -/
theorem Follows.rows (h : Follows s e τ) (hs : Fleet.Reached C s) (he : e ∈ s.execs)
    (hreturned : ∀ p x, ⟨.call .reportProgress p, x⟩ ∈ τ → x.isSome = true)
    (hdraws : ((Execute.puts τ).map Execute.Put.unique).Nodup)
    (hentries : Execute.reported τ = (Execute.puts τ).map Execute.Put.entry) :
    ((s.db.artifacts.filter (·.attemptID = e.lease.attemptID)).map ArtifactRec.artifact).Perm
      (Execute.reported τ) := by
  have hreported : (Execute.reported τ).Nodup := hentries ▸ entries_nodup hdraws
  refine (List.perm_ext_iff_of_nodup (hs.rows_nodup _) hreported).mpr fun x => ⟨fun hx => ?_, fun hx => ?_⟩
  · obtain ⟨row, hrow, rfl⟩ := List.mem_map.mp hx
    obtain ⟨hmem, hid⟩ := List.mem_filter.mp hrow
    exact h.reported hs he hmem (by simpa using hid)
  · obtain ⟨p, answer, hcall, hx⟩ := Execute.mem_reported hx
    obtain ⟨⟨⟩, rfl⟩ := Option.isSome_iff_exists.mp (hreturned p answer hcall)
    obtain ⟨row, hrow, hid, hart⟩ := h.stored hs hcall hx
    exact List.mem_map.mpr ⟨row, List.mem_filter.mpr ⟨hrow, by simpa using hid⟩, hart⟩

end Follows

end Worker

namespace Sample

/-- Two files of the same name in different directories, and a link. -/
def outputs : Worker.Directory :=
  [(⟨Worker.str "result.json", by decide⟩, .file [1]), (⟨Worker.str "latest", by decide⟩, .symlink true),
    (⟨Worker.str "best", by decide⟩, .dir [(⟨Worker.str "result.json", by decide⟩, .file [2])])]

def bestFile : Worker.File := fileOf "result.json" [2] (by decide)

def resultFile : Worker.File := fileOf "result.json" [1] (by decide)

/-- What the command leaves. One of its checkpoints is not published. -/
def left : Worker.Left where
  checkpoints := [file, fileOf "next.tmp" [2] (by decide)]
  log := [104, 105]
  outputs := outputs
  returncode := 0
  names := by decide
  distinct := by
    simp only [outputs, Worker.Distinct, Worker.Node.Distinct]
    decide

theorem outputs_collected : (Worker.outputFiles left.outputs).map Prod.snd = [bestFile, resultFile] := rfl

section Trace

open Script (Runs)
open Worker (upload)
open Worker.Execute (Ask Put Trace)

variable [Hashlib] {l : Lease}

/-- The events of an upload. -/
def uploading (p : Put l) : Trace l := [⟨.draw, some p.unique⟩, ⟨.put p, some ()⟩]

theorem uploading_runs (p : Put l) :
    Runs (Worker.Execute.uploadFile l p.kind p.file) (uploading p) (.returned p.entry) := by
  have hdraw : Runs (Worker.Execute.draw l) [⟨.draw, some p.unique⟩] (.returned p.unique) := .op _ _
  refine hdraw.bind ?_
  split
  · rename_i hnone
    rw [p.uploads] at hnone
    cases hnone
  · rename_i made hmade
    obtain rfl : made = p.entry := Option.some.inj (hmade.symm.trans p.uploads)
    have hput : Runs (Worker.Execute.put l p) [⟨.put p, some ()⟩] (.returned ()) := .op _ _
    exact hput.bind .done

theorem call_runs (m : Method) (p : Worker.Payload) :
    Runs (Worker.Execute.call l m p) [⟨.call m p, some ()⟩] (.returned ()) := .op _ _

theorem report_runs {entries : List Artifact} (h : Worker.batches entries = [entries]) :
    Runs (Worker.Execute.report l entries) [⟨.call .reportProgress (.artifacts entries), some ()⟩]
      (.returned [()]) := by
  rw [Worker.Execute.report, h]
  exact (call_runs _ _).each_cons .each_nil

/-- A round while the command runs, in which there are a line and a checkpoint. -/
def roundTrace (step : Put l) : Trace l :=
  [⟨.alive, some true⟩, ⟨.lines, some [Worker.str "hi"]⟩, ⟨.glob, some [file]⟩] ++ uploading step ++
    [⟨.call .reportProgress (.logs [Worker.str "hi"]), some ()⟩,
      ⟨.call .reportProgress (.artifacts [step.entry]), some ()⟩]

/-- The last round, the log and the outputs. -/
def lastTrace (log best result : Put l) : Trace l :=
  [⟨.alive, some true⟩, ⟨.lines, some []⟩, ⟨.glob, some [file]⟩] ++ (uploading log ++ (uploading best ++
    (uploading result ++ [⟨.call .reportProgress (.artifacts [log.entry, best.entry, result.entry]), some ()⟩]))) ++
    [⟨.call .completeAttempt (.result 0 (Worker.str "")), some ()⟩]

def wholeTrace (step log best result : Put l) : Trace l :=
  [⟨.alive, some true⟩, ⟨.call .startAttempt .empty, some ()⟩, ⟨.prepare, some ()⟩, ⟨.alive, some true⟩,
    ⟨.popen, some ()⟩] ++ (roundTrace step ++ lastTrace log best result)

/-- The kinds and files of the uploads. -/
structure Uploads (step log best result : Put l) : Prop where
  step : step.kind = .checkpoint ∧ step.file = file
  log : log.kind = .log ∧ log.file = Worker.logFile left.log
  best : best.kind = .output ∧ best.file = bestFile
  result : result.kind = .output ∧ result.file = resultFile

theorem round_runs {step : Put l} (hstep : step.kind = .checkpoint ∧ step.file = file) :
    Runs (Worker.Execute.progress l []) ((roundTrace step).drop 1) (.returned [file.name]) := by
  have hlines : Runs (Worker.Execute.lines l) [⟨.lines, some [Worker.str "hi"]⟩]
      (.returned [Worker.str "hi"]) := .op _ _
  have hglob : Runs (Worker.Execute.glob l) [⟨.glob, some [file]⟩] (.returned [file]) := .op _ _
  have hupload := uploading_runs step
  rw [hstep.1, hstep.2] at hupload
  have hreport : Runs (Worker.Execute.reportProgress l [Worker.str "hi"] [step.entry])
      [⟨.call .reportProgress (.logs [Worker.str "hi"]), some ()⟩,
        ⟨.call .reportProgress (.artifacts [step.entry]), some ()⟩] (.returned [()]) := by
    rw [Worker.Execute.reportProgress, if_pos (.inr (List.cons_ne_nil _ _))]
    exact (call_runs _ _).bind (report_runs (by simp [Worker.batches]))
  exact hlines.bind (hglob.bind ((hupload.each_cons .each_nil).bind (hreport.bind .done)))

theorem last_runs {step log best result : Put l} (h : Uploads step log best result) :
    Runs (Worker.Execute.finish l left [file.name]) (lastTrace log best result) (.returned ()) := by
  have halive : Runs (Worker.Execute.alive l) [⟨.alive, some true⟩] (.returned true) := .op _ _
  have hlines : Runs (Worker.Execute.lines l) [⟨.lines, some []⟩] (.returned []) := .op _ _
  have hglob : Runs (Worker.Execute.glob l) [⟨.glob, some [file]⟩] (.returned [file]) := .op _ _
  have hnone : [file].filter (fun f => f.name ∉ [file.name]) = [] := by simp
  have hprogress : Runs (Worker.Execute.progress l [file.name]) [⟨.lines, some []⟩, ⟨.glob, some [file]⟩]
      (.returned [file.name]) := by
    refine hlines.bind (hglob.bind ?_)
    rw [hnone]
    exact .done
  have hlog := uploading_runs log
  have hbest := uploading_runs best
  have hresult := uploading_runs result
  rw [h.log.1, h.log.2] at hlog
  rw [h.best.1, h.best.2] at hbest
  rw [h.result.1, h.result.2] at hresult
  have hreport : Runs (Worker.Execute.report l [log.entry, best.entry, result.entry])
      [⟨.call .reportProgress (.artifacts [log.entry, best.entry, result.entry]), some ()⟩] (.returned [()]) :=
    report_runs (by simp [Worker.batches])
  have hcollect : Runs (Worker.Execute.collect l left) (uploading log ++ (uploading best ++
      (uploading result ++ [⟨.call .reportProgress (.artifacts [log.entry, best.entry, result.entry]), some ()⟩])))
      (.returned [()]) := by
    refine hlog.bind ?_
    have houtputs := hbest.each_cons (hresult.each_cons .each_nil)
    rw [← outputs_collected] at houtputs
    have hrest := houtputs.bind (f := fun outputs => Worker.Execute.report l (log.entry :: outputs)) hreport
    simpa using hrest
  have hdone := call_runs (l := l) .completeAttempt (.result 0 (Worker.str ""))
  rw [lastTrace, List.append_assoc]
  exact halive.bind (hprogress.bind (hcollect.bind hdone))

theorem whole_runs {step log best result : Put l} (h : Uploads step log best result) :
    Runs (Worker.Execute.execute l left 1) (wholeTrace step log best result) (.returned ()) := by
  have halive : Runs (Worker.Execute.alive l) [⟨.alive, some true⟩] (.returned true) := .op _ _
  have hprepare : Runs (Worker.Execute.prepare l) [⟨.prepare, some ()⟩] (.returned ()) := .op _ _
  have hpopen : Runs (Worker.Execute.popen l) [⟨.popen, some ()⟩] (.returned ()) := .op _ _
  have hround : Runs (Worker.Execute.running l left 1 []) (roundTrace step ++ lastTrace log best result)
      (.returned ()) := halive.bind ((round_runs h.step).bind (last_runs h))
  exact (halive.bind ((call_runs _ _).bind (hprepare.bind (halive.bind (hpopen.bind hround))))).handle
    (fun h => by cases h) _

/-- The calls of a run, with what they have returned. -/
def calls (τ : Trace l) : List (Method × Worker.Payload × Option Unit) :=
  τ.filterMap fun e => match e with
    | ⟨.call m p, x⟩ => some (m, p, x)
    | _ => none

theorem mem_calls {τ : Trace l} {m : Method} {p : Worker.Payload} {x : Option Unit} :
    ⟨.call m p, x⟩ ∈ τ ↔ (m, p, x) ∈ calls τ := by
  refine ⟨fun h => List.mem_filterMap.mpr ⟨_, h, rfl⟩, fun h => ?_⟩
  obtain ⟨⟨q, y⟩, hmem, heq⟩ := List.mem_filterMap.mp h
  cases q <;> cases heq
  exact hmem

end Trace

/-! ## The run of the server -/

def stepPut : @Worker.Execute.Put hashlib firstLease :=
  @Worker.Execute.Put.mk hashlib _ .checkpoint (Uuid.ID 7) file fileEntry file_uploaded

def logEntry : Artifact := @Worker.entryOf hashlib firstLease .log (Uuid.ID 11) "execution.log" [104, 105]

def bestEntry : Artifact := @Worker.entryOf hashlib firstLease .output (Uuid.ID 12) "result.json" [2]

def resultEntry : Artifact := @Worker.entryOf hashlib firstLease .output (Uuid.ID 13) "result.json" [1]

def logPut : @Worker.Execute.Put hashlib firstLease :=
  @Worker.Execute.Put.mk hashlib _ .log (Uuid.ID 11) (Worker.logFile left.log) logEntry
    ((@Worker.upload_eq_some hashlib _ _ _ _ _).mpr ⟨"execution.log", Worker.encode_str _, rfl⟩)

def bestPut : @Worker.Execute.Put hashlib firstLease :=
  @Worker.Execute.Put.mk hashlib _ .output (Uuid.ID 12) bestFile bestEntry
    ((@Worker.upload_eq_some hashlib _ _ _ _ _).mpr ⟨"result.json", Worker.encode_str _, rfl⟩)

def resultPut : @Worker.Execute.Put hashlib firstLease :=
  @Worker.Execute.Put.mk hashlib _ .output (Uuid.ID 13) resultFile resultEntry
    ((@Worker.upload_eq_some hashlib _ _ _ _ _).mpr ⟨"result.json", Worker.encode_str _, rfl⟩)

def completedTrace : @Worker.Execute.Trace hashlib firstLease :=
  @wholeTrace hashlib _ stepPut logPut bestPut resultPut

theorem completed_runs :
    Script.Runs (@Worker.Execute.execute hashlib firstLease left 1) completedTrace (.returned ()) :=
  @whole_runs hashlib _ _ _ _ _ (@Uploads.mk hashlib _ _ _ _ _ ⟨rfl, rfl⟩ ⟨rfl, rfl⟩ ⟨rfl, rfl⟩ ⟨rfl, rfl⟩)

def linesCall : Call := ⟨server, .rpc .reportProgress { request "4" with logs := some ["hi"] }, oracle 5000⟩

def stepCall : Call :=
  ⟨server, .rpc .reportProgress { request "5" with artifacts := some [fileEntry] }, oracle 6000⟩

def collectCall : Call :=
  ⟨server, .rpc .reportProgress { request "6" with artifacts := some [logEntry, bestEntry, resultEntry] },
    oracle 7000⟩

def doneCall : Call := ⟨server, .rpc .completeAttempt (request "7"), oracle 8000⟩

/-- The calls of the execution. -/
def executed : List Call := [firstStartCall, linesCall, stepCall, collectCall, doneCall]

/-- The calls are new and accepted one after the other, and no attempt expires. -/
def Accepts : List Call → Db → Prop
  | [], db => ∀ a ∈ db.attempts, a.state ≠ .expired
  | c :: cs, db => (@perform digest c db).1 = .ok (.response .accepted) ∧ c.op.fresh db = true ∧
      Accepts cs (@perform digest c db).2

instance decidableAccepts : (cs : List Call) → (db : Db) → Decidable (Accepts cs db)
  | [], db => inferInstanceAs (Decidable (∀ a ∈ db.attempts, a.state ≠ .expired))
  | c :: cs, db =>
      have := decidableAccepts cs (@perform digest c db).2
      inferInstanceAs (Decidable (_ ∧ _ ∧ _))

theorem executed_accepted : Accepts executed firstLeasedDb := by decide +kernel

theorem Accepts.split {pre post : List Call} {c : Call} {db : Db} (h : Accepts (pre ++ c :: post) db) :
    (@perform digest c (@exec digest pre db)).1 = .ok (.response .accepted) ∧
      c.op.fresh (@exec digest pre db) = true ∧
      Accepts post (@exec digest (pre ++ [c]) db) := by
  induction pre generalizing db with
  | nil => exact h
  | cons d pre ih => exact ih h.2.2

/-- The requests of the first calls of the execution. -/
def requested (n : Nat) : List Op := (executed.take n).map Call.op

/-- The states of the run, with the number of calls executed for the execution. -/
def completion (n k : Nat) (e : Worker.Exec) : Worker.Fleet :=
  @Worker.Fleet.after digest (failing.take 3 ++ executed.take n) [e] (requested k)

theorem completing_unexpired (n : Nat) :
    ∀ a ∈ (@exec digest (failing.take 3 ++ executed.take n) Db.empty).attempts, a.state ≠ .expired := by
  have hlast : ∀ a ∈ (@exec digest (failing.take 3 ++ executed.take n ++ executed.drop n) Db.empty).attempts,
      a.state ≠ .expired := by
    rw [List.append_assoc, List.take_append_drop, @exec_append digest, failing_leased]
    have hsplit : executed = executed.take 4 ++ doneCall :: [] := rfl
    have haccepts := executed_accepted
    rw [hsplit] at haccepts
    exact haccepts.split.2.2
  exact @Worker.unexpired_of_append digest _ _ hlast

theorem completion_serve {n : Nat} {c : Call} {e : Worker.Exec}
    (h : Reached (fun _ _ => True) (completion n (n + 1) e)) (hc : executed.take (n + 1) = executed.take n ++ [c]) :
    Reached (fun _ _ => True) (completion (n + 1) (n + 1) e) := by
  have hexp := completing_unexpired (n + 1)
  have hsent : c.op ∈ requested (n + 1) := by
    rw [requested, hc, List.map_append]
    exact List.mem_append_right _ List.mem_cons_self
  unfold completion at h ⊢
  rw [hc, ← List.append_assoc] at hexp ⊢
  exact @Worker.Fleet.Reached.after_serve digest hashlib _ _ _ _ _ h trivial (fun _ => hsent) hexp

theorem completion_send {n : Nat} {c : Call} {e : Worker.Exec} (h : Reached (fun _ _ => True) (completion n n e))
    (hc : executed.take (n + 1) = executed.take n ++ [c])
    (hmove : @Worker.Move hashlib (completion n n e) e .call e [c.op]) :
    Reached (fun _ _ => True) (completion n (n + 1) e) := by
  have hnext : requested (n + 1) = requested n ++ [c.op] := by rw [requested, hc, List.map_append]; rfl
  unfold completion
  rw [hnext]
  exact @Worker.Fleet.Reached.after_move digest hashlib _ _ [] _ _ _ _ _ h trivial hmove (by simp)

theorem completion_step {n k : Nat} {e e' : Worker.Exec} {a : Worker.Act}
    (h : Reached (fun _ _ => True) (completion n k e))
    (hmove : @Worker.Move hashlib (completion n k e) e a e' []) :
    Reached (fun _ _ => True) (completion n k e') := by
  have hmoved := @Worker.Fleet.Reached.after_move digest hashlib _ _ [] _ _ _ _ _ h trivial hmove (by simp)
  rwa [List.append_nil] at hmoved

/-- The execution after its last call. -/
def ending : Worker.Exec := executing firstLease .reporting false [file]

theorem completed_reached : Reached (fun _ _ => True) (completion 5 5 ending) := by
  have h1 : Reached (fun _ _ => True) (completion 1 1 (executing firstLease .running true [])) :=
    reached_first (fun _ _ _ => trivial)
  have hpublished := completion_step h1 (@Worker.Move.publish hashlib _ _ file rfl)
  have h2 := completion_serve (completion_send hpublished (c := linesCall) rfl
    (@Worker.Move.report hashlib _ _ _ (.inl rfl) ⟨rfl, rfl⟩ (fun x hx => by cases hx))) rfl
  have h3 := completion_serve (completion_send h2 (c := stepCall) rfl
    (@Worker.Move.report hashlib _ _ _ (.inl rfl) ⟨rfl, rfl⟩ (fun x hx => ⟨.checkpoint, Uuid.ID 7, file,
      List.mem_singleton.mp hx ▸ file_uploaded, fun _ => List.mem_cons_self⟩))) rfl
  have hcollected := completion_step h3 (@Worker.Move.collect hashlib _ _ rfl)
  have h4 := completion_serve (completion_send hcollected (c := collectCall) rfl
    (@Worker.Move.report hashlib _ _ _ (.inr rfl) ⟨rfl, rfl⟩ (fun x hx => by
      have hmem : x ∈ [logEntry, bestEntry, resultEntry] := hx
      simp only [List.mem_cons, List.not_mem_nil, or_false] at hmem
      rcases hmem with rfl | rfl | rfl
      · exact ⟨_, _, _, @Worker.Execute.Put.uploads hashlib _ logPut, fun h => by cases h⟩
      · exact ⟨_, _, _, @Worker.Execute.Put.uploads hashlib _ bestPut, fun h => by cases h⟩
      · exact ⟨_, _, _, @Worker.Execute.Put.uploads hashlib _ resultPut, fun h => by cases h⟩))) rfl
  exact completion_serve (completion_send h4 (c := doneCall) rfl
    (@Worker.Move.result hashlib _ _ _ _ rfl ⟨rfl, rfl⟩ rfl (.inl rfl))) rfl

theorem completed_answers {c : Call} (hmem : c ∈ executed) :
    (c.op, .accepted) ∈ (completion 5 5 ending).answers := by
  obtain ⟨pre, post, hc⟩ := List.append_of_mem hmem
  have haccepts := executed_accepted
  rw [hc] at haccepts
  obtain ⟨hres, hfresh, -⟩ := haccepts.split
  have hexec : @exec digest (failing.take 3 ++ pre) Db.empty = @exec digest pre firstLeasedDb := by
    rw [@exec_append digest, failing_leased]
  have hwhole : failing.take 3 ++ executed.take 5 = (failing.take 3 ++ pre) ++ c :: post := by
    rw [show executed.take 5 = executed from rfl, hc, List.append_assoc]
  unfold completion
  rw [hwhole]
  refine @Worker.Fleet.mem_after digest _ _ _ _ _ _ ?_ ?_
  · rw [hexec, hres]
  · rw [hexec, hfresh]

theorem completed_calls : @calls hashlib _ completedTrace =
    [(.startAttempt, .empty, some ()), (.reportProgress, .logs [Worker.str "hi"], some ()),
      (.reportProgress, .artifacts [fileEntry], some ()),
      (.reportProgress, .artifacts [logEntry, bestEntry, resultEntry], some ()),
      (.completeAttempt, .result 0 (Worker.str ""), some ())] := rfl

theorem completed_follows : @Worker.Follows hashlib (completion 5 5 ending) ending completedTrace := by
  have hlogs : (Worker.Payload.logs [Worker.str "hi"]).In { request "4" with logs := some ["hi"] } :=
    ⟨rfl, by simp [Worker.Payload.request, Worker.joined_str], rfl, rfl⟩
  refine @Worker.Follows.mk hashlib _ _ _ (fun m r hmem _ => ?_) (fun m p hmem => ?_)
  · have hop : Op.rpc m r ∈ executed.map Call.op := hmem
    suffices h : ∃ p, (m, p, some ()) ∈ @calls hashlib _ completedTrace ∧ p.In r by
      obtain ⟨p, hp, hin⟩ := h
      exact ⟨p, some (), (@mem_calls hashlib _ _ _ _ _).mpr hp, hin⟩
    rw [completed_calls]
    simp only [executed, List.map_cons, List.map_nil, List.mem_cons, List.not_mem_nil, or_false] at hop
    rcases hop with h | h | h | h | h <;> cases h
    · exact ⟨_, (.head _), rfl, rfl, rfl, rfl⟩
    · exact ⟨_, (.tail _ (.head _)), hlogs⟩
    · exact ⟨_, (.tail _ (.tail _ (.head _))), rfl, rfl, rfl, rfl⟩
    · exact ⟨_, (.tail _ (.tail _ (.tail _ (.head _)))), rfl, rfl, rfl, rfl⟩
    · exact ⟨_, (.tail _ (.tail _ (.tail _ (.tail _ (.head _))))), rfl, rfl, rfl, rfl⟩
  · have hcall := (@mem_calls hashlib _ _ _ _ _).mp hmem
    rw [completed_calls] at hcall
    simp only [List.mem_cons, List.not_mem_nil, or_false] at hcall
    rcases hcall with h | h | h | h | h <;> cases h
    · exact ⟨_, _, completed_answers (c := firstStartCall) (.head _), ⟨rfl, rfl⟩, rfl, rfl, rfl, rfl⟩
    · exact ⟨_, _, completed_answers (c := linesCall) (.tail _ (.head _)), ⟨rfl, rfl⟩, hlogs⟩
    · exact ⟨_, _, completed_answers (c := stepCall) (.tail _ (.tail _ (.head _))), ⟨rfl, rfl⟩, rfl, rfl, rfl, rfl⟩
    · exact ⟨_, _, completed_answers (c := collectCall) (.tail _ (.tail _ (.tail _ (.head _)))), ⟨rfl, rfl⟩, rfl, rfl, rfl, rfl⟩
    · exact ⟨_, _, completed_answers (c := doneCall) (.tail _ (.tail _ (.tail _ (.tail _ (.head _))))), ⟨rfl, rfl⟩, rfl, rfl, rfl, rfl⟩

theorem left_published : left.published = [file.name] := by decide

theorem left_stable : @Worker.Left.Stable hashlib firstLease left completedTrace := by
  have hlistings : @Worker.Execute.listings hashlib _ completedTrace = [[file], [file]] := rfl
  refine @Worker.Left.Stable.mk hashlib _ _ _ ?_ ?_ ?_
  all_goals rw [hlistings]
  · simp
  · simp [left_published]
  · intro listing hlast
    cases hlast
    simp [left_published]

theorem draws_distinct : ((@Worker.Execute.puts hashlib _ completedTrace).map
    (@Worker.Execute.Put.unique hashlib _)).Nodup := by
  have hputs : (@Worker.Execute.puts hashlib _ completedTrace).map (@Worker.Execute.Put.unique hashlib _) =
      [Uuid.ID 7, Uuid.ID 11, Uuid.ID 12, Uuid.ID 13] := rfl
  rw [hputs]
  decide

end Sample

end Rungrid
