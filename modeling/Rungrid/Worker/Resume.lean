-- SUMMARY: A command that resumes finds the bytes of a checkpoint that an earlier attempt of its job published and reported.
import Rungrid.Worker.Protocol

/-!
# Resuming from a checkpoint

The chain from a published file to the file a later attempt reads: the digest that
`upload` takes, the report that commits it, the lease that selects it, and the
comparison after the download. The object store stands between the first and the last
of them and can lose what was written or return anything.
-/

namespace Rungrid

namespace Worker

section Resume

variable [Sha256] [Hashlib] {s : Fleet} {e : Exec}

/-- The bytes are those of a checkpoint file that an earlier attempt of the job
published, and the entry `a` of the file is in a report of that attempt which the
server has committed. -/
def Fleet.Acknowledged (s : Fleet) (e : Exec) (a : Artifact) (content : List UInt8) : Prop :=
  ∃ e' ∈ s.execs, e'.lease.job.id = e.lease.job.id ∧
    e'.lease.attemptNumber < e.lease.attemptNumber ∧ (∃ f ∈ e'.files, f.content = content) ∧
    ∃ r res, (.rpc .reportProgress r, res) ∈ s.answers ∧ e'.Names r ∧ a ∈ r.artifacts.elems

/-- The checkpoint of a lease is the upload of a published file. -/
theorem Fleet.Sound.checkpoint (h : s.Sound) (he : e ∈ s.execs) {a : Artifact}
    (ha : e.lease.checkpoint = some a) :
    ∃ content, a.checksum = digest content ∧ s.Acknowledged e a content ∧
      ∃ e' ∈ s.execs, ∃ f ∈ e'.files, f.content = content := by
  obtain ⟨row, hrow, hxrow, hkind, b, hb, hbjob, hbnum⟩ := (h.execs e he).checkpoint a ha
  obtain ⟨r, res, hsent, hans, hmem, hid⟩ := h.rows row hrow
  obtain ⟨e', he', hnames, hall⟩ := h.reports r hsent
  rw [hxrow] at hmem
  obtain ⟨kind, unique, f, hup, hf⟩ := hall a hmem
  obtain ⟨name, -, hentry⟩ := upload_eq_some.mp hup
  have hcheckpoint : kind = .checkpoint := by
    have hkinds : kind.text = row.kind.text := (congrArg Artifact.kind (hxrow.trans hentry)).symm
    rw [hkind] at hkinds
    exact ArtifactKind.text_eq.mp hkinds
  -- The report names the attempt of the row, which is the attempt of the execution.
  have hattempt : e'.lease.attemptID = row.attemptID := by
    rw [hnames.1, Uuid.parse_text] at hid
    exact Option.some.inj hid
  obtain ⟨b', hb', hjob', hnum'⟩ := (h.execs e' he').attempt
  rw [hattempt] at hb'
  obtain rfl := Option.some.inj (hb.symm.trans hb')
  refine ⟨f.content, by rw [hentry, digest_eq]; rfl, ⟨e', he', hjob'.symm.trans hbjob, hnum' ▸ hbnum,
    ⟨f, hf hcheckpoint, rfl⟩, r, res, hans, hnames, hmem⟩, e', he', f, hf hcheckpoint, rfl⟩

end Resume

end Worker

/-- In every state of the system, for every execution and whatever the object store
returns: a command that is started with a checkpoint finds in `resume.json` the bytes
of an acknowledged checkpoint of an earlier attempt, a command is not started if the
store returns other bytes or none, and a command without a checkpoint has no path to
one. SHA-256 has no collisions between published and returned bytes. -/
theorem checkpoints_intact [Sha256] [Hashlib] (s : Worker.Fleet)
    (hs : Worker.Fleet.Reached (fun _ _ => True) s) (e : Worker.Exec) (he : e ∈ s.execs)
    (h : Worker.Host) (download : String → Option (List UInt8))
    (hsha : ∀ e' ∈ s.execs, ∀ f ∈ e'.files, ∀ key content, download key = some content →
      Hashlib.hexdigest content = Hashlib.hexdigest f.content → content = f.content) :
    (∀ a child, e.lease.checkpoint = some a →
      Worker.start h download e.lease.toJson = .ok child →
      Dict.get "RUNGRID_CHECKPOINT_PATH" child.env = some h.restored ∧
        ∃ content, Worker.resumeFile download e.lease.toJson = some content ∧
          s.Acknowledged e a content) ∧
    (∀ a, e.lease.checkpoint = some a →
      (∀ content, download a.objectKey = some content → ¬ s.Acknowledged e a content) →
      ∀ child, Worker.start h download e.lease.toJson ≠ .ok child) ∧
    ∀ child, e.lease.checkpoint = none → Worker.start h download e.lease.toJson = .ok child →
      Dict.get "RUNGRID_CHECKPOINT_PATH" child.env = none := by
  have hstart : ∀ a child, e.lease.checkpoint = some a →
      Worker.start h download e.lease.toJson = .ok child →
      Dict.get "RUNGRID_CHECKPOINT_PATH" child.env = some h.restored ∧
        ∃ content, Worker.resumeFile download e.lease.toJson = some content ∧
          download a.objectKey = some content ∧ s.Acknowledged e a content := by
    intro a child ha hchild
    obtain ⟨hpath, content, hfile, hdownload, hdigest⟩ := Worker.start_checkpoint hchild ha
    obtain ⟨published, hsum, hack, e', he', f, hf, hcontent⟩ := hs.sound.checkpoint he ha
    have hsame : content = published := by
      rw [← hcontent]
      refine hsha e' he' f hf a.objectKey content hdownload ?_
      rw [← Worker.digest_eq, ← Worker.digest_eq, hdigest, hsum, hcontent]
    exact ⟨hpath, content, hfile, hdownload, hsame ▸ hack⟩
  refine ⟨fun a child ha hchild => ?_, fun a ha hother child hchild => ?_, fun child ha hchild => ?_⟩
  · obtain ⟨hpath, content, hfile, -, hack⟩ := hstart a child ha hchild
    exact ⟨hpath, content, hfile, hack⟩
  · obtain ⟨-, content, -, hdownload, hack⟩ := hstart a child ha hchild
    exact hother content hdownload hack
  · exact Worker.start_without_checkpoint hchild ha

/-- The second execution of the sample run finds the file of the first. -/
theorem checkpoints_intact_sample :
    ∃ child content, @Worker.start Sample.hashlib Sample.host Sample.download Sample.secondLease.toJson
        = .ok child ∧
      Dict.get "RUNGRID_CHECKPOINT_PATH" child.env = some Sample.host.restored ∧
      @Worker.resumeFile Sample.hashlib Sample.download Sample.secondLease.toJson = some content := by
  have hcontent : ∀ e ∈ [Sample.executing Sample.firstLease .handling true [Sample.file],
      Sample.executing Sample.secondLease .starting false []], ∀ f ∈ e.files, ∀ key content,
      Sample.download key = some content → Sample.hashlib.hexdigest content
        = Sample.hashlib.hexdigest f.content → content = f.content := by
    intro e he f hf key content hkey _
    have hone : content = [1] := by
      unfold Sample.download at hkey
      split at hkey <;> cases hkey
      rfl
    rcases List.mem_cons.mp he with rfl | he
    · rw [List.mem_singleton.mp hf, hone]
      rfl
    · rw [List.mem_singleton.mp he] at hf
      cases hf
  have hok : (@Worker.start Sample.hashlib Sample.host Sample.download
      Sample.secondLease.toJson).toBool = true := by decide +kernel
  cases hstart : @Worker.start Sample.hashlib Sample.host Sample.download Sample.secondLease.toJson with
  | error e => rw [hstart] at hok; cases hok
  | ok child =>
      obtain ⟨hpath, content, hfile, -⟩ := (@checkpoints_intact Sample.digest Sample.hashlib _
        (Sample.reached_again (fun _ _ _ => trivial) (Sample.reached_reported (fun _ _ _ => trivial)) trivial)
        (Sample.executing Sample.secondLease .starting false [])
        (List.mem_cons_of_mem _ List.mem_cons_self) Sample.host Sample.download hcontent).1 _ child rfl
        hstart
      exact ⟨child, content, rfl, hpath, hfile⟩

end Rungrid
