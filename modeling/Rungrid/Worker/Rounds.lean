-- SUMMARY: A call of `progress` in the script of `execute` is a round of the checkpoint directory and of the log queue.
import Rungrid.Worker.Execute
import Rungrid.Worker.Logs
import Rungrid.Worker.Progress

/-!
# Rounds of `progress`

`progress` is part of the script of `execute`, which has its calls; the steps of a `Site`
have what it does to the files between two changes of their directory, and those of a
`LogState` what it does to the queue. Here the three are put together: a call in the script
that returns is a round of the other two, with the same reports.
-/

namespace Rungrid

namespace Worker

open Dumps (Str)
open Script (Runs returned_bind returned_op)

/-! ## Checkpoints -/

/-- The name of a checkpoint file. -/
def checkpointName (id : Uuid) : Str := str (id.text ++ ".json")

theorem checkpointName_injective : Function.Injective checkpointName := by
  intro id id' h
  have htext : (id.text ++ ".json").toList = (id'.text ++ ".json").toList := Dumps.ofChars_injective h
  rw [String.toList_append, String.toList_append] at htext
  exact Uuid.text_injective (String.toList_injective (List.append_cancel_right htext))

section Checkpoints

variable [Hashlib] {l : Lease}

/-- The upload of a file as the script reports it. -/
def Sent.Uploads (l : Lease) (x : Sent) (entry : Artifact) : Prop :=
  ∃ unique, upload l .checkpoint unique (checkpointFile x.id x.checked) = some entry

/-- A call of `progress` that is told the listing of the site takes the site through a
round. The server has recorded the entries the script has reported. -/
theorem Site.Reached.progress {C : Site → Site → Prop} (hC : ∀ s s' : Site, s'.files = s.files → C s s')
    {s : Site} (h : Site.Reached C s) (hstage : s.stage = .listing) {listing : List Published}
    (hnodup : (listing.map Published.id).Nodup) (hsub : listing ⊆ s.files)
    (hdue : s.due ⊆ listing.map Published.id)
    (hsorted : listing.Pairwise (fun f f' => f.mtime ≤ f'.mtime)) {τ : Execute.Trace l} {uploaded : List Str}
    (hrun : Runs (Execute.progress l (s.uploaded.map checkpointName)) τ (.returned uploaded))
    (hglob : Execute.listings τ = [listing.map Published.file]) :
    ∃ s' new, Site.Reached C s' ∧ s'.stage = .idle ∧ s'.files = s.files ∧
      uploaded = s'.uploaded.map checkpointName ∧ s'.reported = s.reported ++ new ∧
      List.Forall₂ (Sent.Uploads l) new (Execute.reported τ) := by
  obtain ⟨hgathered, found, hfound, hputs⟩ := Execute.progress_spec hrun
  rw [(List.cons.inj (hfound.symm.trans hglob)).1] at hputs
  -- The set of the paths and the ids of the site pick the same files.
  have hfresh : (listing.map Published.file).filter (fun f => f.name ∉ s.uploaded.map checkpointName) =
      (listing.filter (fun f => f.id ∉ s.uploaded)).map Published.file := by
    rw [List.filter_map]
    congr 2
    funext f
    have hname : f.file.name = checkpointName f.id := rfl
    simp only [Function.comp_apply, hname, List.mem_map_of_injective checkpointName_injective]
  rw [hfresh] at hputs
  refine ⟨_, _, h.round hC hstage hnodup hsub hdue hsorted, rfl, rfl, ?_, rfl, ?_⟩
  · have hnames : (Execute.puts τ).map (fun p => p.file.name) =
        ((listing.filter (fun f => f.id ∉ s.uploaded)).map Published.id).map checkpointName := by
      have hmap := congrArg (List.map File.name) hputs
      rw [List.map_map, List.map_map] at hmap
      rw [List.map_map]
      exact hmap
    rw [hgathered.names, hnames, List.map_append]
  · have huploads : List.Forall₂ (fun f entry => ∃ unique, upload l .checkpoint unique f = some entry)
        ((Execute.puts τ).map Execute.Put.file) ((Execute.puts τ).map Execute.Put.entry) := by
      rw [List.forall₂_map_left_iff, List.forall₂_map_right_iff]
      exact List.forall₂_same.mpr fun p hp => ⟨p.unique, hgathered.kinds p hp ▸ p.uploads⟩
    rw [hputs, List.forall₂_map_left_iff] at huploads
    rw [hgathered.entries, List.forall₂_map_left_iff]
    exact huploads

end Checkpoints

/-! ## Log lines -/

section Lines

variable {α : Type} {C : LogEvent α → LogState α → Prop}
  (hC : ∀ e s, e ≠ .raise → e ≠ .drain → C e s) {s : LogState α} {last : Bool}
include hC

theorem LogRun.gets {n : Nat} (hphase : s.phase = .collecting last) (hbatch : s.batch.length + n ≤ 100)
    (hqueue : n ≤ s.queue.length) :
    LogRun C s { s with queue := s.queue.drop n, batch := s.batch ++ s.queue.take n } := by
  induction n with
  | zero =>
      rw [List.drop_zero, List.take_zero, List.append_nil]
      exact .refl
  | succ n ih =>
      have hline : s.queue.drop n = s.queue[n] :: s.queue.drop (n + 1) := List.drop_eq_getElem_cons hqueue
      have hget := LogStep.get (s := { s with queue := s.queue.drop n, batch := s.batch ++ s.queue.take n })
        hphase (by simp; omega) hline
      refine (ih (by omega) (by omega)).tail ⟨.get, ?_, hC _ _ (by simp) (by simp)⟩
      rw [List.append_assoc, List.take_append_getElem] at hget
      exact hget

/-- `progress` takes the first hundred lines. -/
theorem LogRun.collects (hphase : s.phase = .collecting last) (hbatch : s.batch = []) :
    LogRun C s { s with
      queue := s.queue.drop 100, batch := s.queue.take 100, phase := .reporting last } := by
  have hgets := LogRun.gets hC (n := min 100 s.queue.length) hphase
    (by rw [hbatch, List.length_nil]; omega) (Nat.min_le_right _ _)
  have hdrop : s.queue.drop (min 100 s.queue.length) = s.queue.drop 100 := by
    rcases Nat.le_total 100 s.queue.length with hle | hle
    · rw [Nat.min_eq_left hle]
    · rw [Nat.min_eq_right hle, List.drop_length, List.drop_of_length_le hle]
  rw [hdrop, hbatch, List.nil_append, ← List.take_eq_take_min] at hgets
  refine hgets.tail ⟨.stop, .stop hphase ?_, hC _ _ (by simp) (by simp)⟩
  rcases Nat.le_total 100 s.queue.length with hle | hle
  · exact .inl (by simpa using hle)
  · exact .inr (List.drop_of_length_le hle)

end Lines

section Logged

variable [Hashlib] {l : Lease}

namespace Execute

/-- The lines `progress` has taken out of the queue. -/
def taken (τ : Trace l) : List (List Str) :=
  τ.filterMap fun e => match e with
    | ⟨.lines, some batch⟩ => some batch
    | _ => none

/-- The lines of the reports. -/
def logged (τ : Trace l) : List (List Str) :=
  τ.filterMap fun e => match e with
    | ⟨.call _ (.logs batch), _⟩ => some batch
    | _ => none

/-- The operation has nothing to do with lines. -/
def Ask.Mute : Ask l → Prop
  | .lines | .call _ (.logs _) => False
  | _ => True

theorem mute_spec {τ : Trace l} (h : ∀ e ∈ τ, e.1.Mute) : taken τ = [] ∧ logged τ = [] := by
  refine ⟨List.filterMap_eq_nil_iff.mpr fun e he => ?_, List.filterMap_eq_nil_iff.mpr fun e he => ?_⟩
  · have hmute := h e he
    split
    · exact hmute.elim
    · rfl
  · have hmute := h e he
    split
    · exact hmute.elim
    · rfl

theorem uploadFile_mute (kind : ArtifactKind) (file : File) : (uploadFile l kind file).Asks Ask.Mute := by
  refine (Script.Asks.op (P := Ask.Mute) (r := Ask.draw) trivial).bind (fun unique => ?_)
  split
  · exact trivial
  · exact (Script.Asks.op (P := Ask.Mute) (r := Ask.put _) trivial).bind (fun _ => trivial)

theorem report_mute (entries : List Artifact) : (report l entries).Asks Ask.Mute :=
  Script.Asks.each fun batch _ => Script.Asks.op (P := Ask.Mute) (r := Ask.call .reportProgress (.artifacts batch)) trivial

theorem reportProgress_logged {batch : List Str} {entries : List Artifact} {us : List Unit} {τ : Trace l}
    (h : Runs (reportProgress l batch entries) τ (.returned us)) :
    taken τ = [] ∧ logged τ = if batch ≠ [] ∨ entries ≠ [] then [batch] else [] := by
  unfold reportProgress at h
  split at h
  · rename_i hsome
    obtain ⟨τ₁, τ₂, _, rfl, hcall, hrest⟩ := returned_bind h
    obtain rfl := returned_op (r := Ask.call _ _) hcall
    obtain ⟨htaken, hlogged⟩ := mute_spec ((report_mute entries).run hrest)
    rw [if_pos hsome]
    exact ⟨htaken, congrArg (List.cons batch) hlogged⟩
  · rename_i hnone
    cases h
    rw [if_neg hnone]
    exact ⟨rfl, rfl⟩

/-- A call of `progress` that returns has taken lines once, and has reported them unless there
was nothing to report. -/
theorem progress_logged {uploaded uploaded' : List Str} {τ : Trace l}
    (h : Runs (progress l uploaded) τ (.returned uploaded')) :
    ∃ batch, taken τ = [batch] ∧ logged τ = if batch ≠ [] ∨ puts τ ≠ [] then [batch] else [] := by
  obtain ⟨batch, listing, τ₁, τ₂, entries, us, rfl, hupload, hreport, rfl⟩ := progress_returned h
  obtain ⟨-, hentries, -, -⟩ := uploadAll_spec hupload
  obtain ⟨hputs₂, -, -⟩ := reportProgress_spec hreport
  obtain ⟨htaken₁, hlogged₁⟩ := mute_spec
    (Script.Asks.run (Script.Asks.each fun f _ => uploadFile_mute .checkpoint f) hupload)
  obtain ⟨htaken₂, hlogged₂⟩ := reportProgress_logged hreport
  have htaken : taken (τ₁ ++ τ₂) = [] := by
    rw [taken, List.filterMap_append]
    exact List.append_eq_nil_iff.mpr ⟨htaken₁, htaken₂⟩
  have hlogged : logged (τ₁ ++ τ₂) = logged τ₂ := by
    rw [logged, List.filterMap_append]
    exact congrArg (· ++ logged τ₂) hlogged₁
  have hputs : puts (τ₁ ++ τ₂) = puts τ₁ := by rw [puts_append, hputs₂, List.append_nil]
  have hsome : entries ≠ [] ↔ puts (τ₁ ++ τ₂) ≠ [] := by
    rw [hputs, ← hentries, Ne, List.map_eq_nil_iff]
  refine ⟨batch, congrArg (List.cons batch) htaken, ?_⟩
  simp only [hsome] at hlogged₂
  exact hlogged.trans hlogged₂

end Execute

/-- A call of `progress` that is told the first hundred lines of the queue takes the queue
through a round, in the loop or after it. -/
theorem LogRun.progress {C : LogEvent Str → LogState Str → Prop}
    (hC : ∀ e s, e ≠ .raise → e ≠ .drain → C e s) {s : LogState Str} {last : Bool}
    (hphase : s.phase = .collecting last) (hbatch : s.batch = []) {τ : Execute.Trace l}
    {uploaded uploaded' : List Str} (hrun : Runs (Execute.progress l uploaded) τ (.returned uploaded'))
    (hlines : Execute.taken τ = [s.queue.take 100]) :
    LogRun C s { s with
      queue := s.queue.drop 100
      reports := s.reports ++ Execute.logged τ
      phase := if last then .closing else .polling } := by
  obtain ⟨batch, htaken, hlogged⟩ := Execute.progress_logged hrun
  rw [← (List.cons.inj (hlines.symm.trans htaken)).1] at hlogged
  have hcollects := LogRun.collects hC hphase hbatch
  have hreport := hcollects.tail ⟨.report (decide (Execute.puts τ ≠ [])), .report rfl, hC _ _ (by simp) (by simp)⟩
  have hreports : (if s.queue.take 100 ≠ [] ∨ decide (Execute.puts τ ≠ []) = true then
      s.reports ++ [s.queue.take 100] else s.reports) = s.reports ++ Execute.logged τ := by
    rw [hlogged]
    simp only [decide_eq_true_eq]
    split
    · rfl
    · rw [List.append_nil]
  rw [hreports] at hreport
  rwa [hbatch]

end Logged

end Worker

end Rungrid
