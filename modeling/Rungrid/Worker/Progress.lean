-- SUMMARY: Checkpoints on their way from the command's directory to the server: complete, once each, and in order.
import Rungrid.Worker.Protocol

/-!
# Publishing and reporting checkpoints

`checkpoint` of the SDK writes a document to a `.tmp` file and renames it to `.json`;
`progress` of the worker lists the `.json` files while the command goes on, uploads
the new ones and reports them in batches. The two share nothing but the directory. A
call of `checkpoint` can stop after any write, when the command is killed; a round of
`progress` can stop at any request, and then it was the last one.

An upload reads the file twice, for the digest and for the body. `reported` is what
the server has recorded, whether or not the worker was told.
-/

namespace Rungrid

namespace Worker

/-! ## The directory and the worker's variables -/

/-- A `.tmp` file: the document a call of `checkpoint` was given, and what it has written
of it. -/
structure Draft where
  id : Uuid
  document : List UInt8
  content : List UInt8
  mtime : Time
deriving DecidableEq

/-- A `.json` file. -/
structure Published where
  id : Uuid
  content : List UInt8
  mtime : Time
deriving DecidableEq

/-- What an upload has read: for the checksum, and for the object. -/
structure Sent where
  id : Uuid
  checked : List UInt8
  stored : List UInt8
deriving DecidableEq

/-- The upload of a file that does not change. -/
def Published.sent (f : Published) : Sent := ⟨f.id, f.content, f.content⟩

/-- Where `progress` stands with the checkpoints. -/
inductive Stage where
  | idle
  /-- In the `glob` and the calls of `stat`. -/
  | listing
  /-- The paths left, the digest taken of the first of them, and the `entries`. -/
  | uploading (todo : List Uuid) (checked : Option (List UInt8)) (entries : List Sent)
  | reporting (entries : List Sent)
  /-- An exception has left `progress`. -/
  | ended

/-- The files that are taken up and not yet reported. -/
def Stage.pending : Stage → List Uuid
  | .uploading todo _ entries => entries.map Sent.id ++ todo
  | .reporting entries => entries.map Sent.id
  | _ => []

def Stage.entries : Stage → List Sent
  | .uploading _ _ entries => entries
  | .reporting entries => entries
  | _ => []

/-- The command's directory and `progress`. `calls` are the documents `checkpoint` was
called with, and `due` the files there were when the last round began. -/
structure Site where
  calls : List (Uuid × List UInt8)
  drafts : List Draft
  files : List Published
  uploaded : List Uuid
  stage : Stage
  due : List Uuid
  reported : List Sent

/-- The number of entries in a report. -/
def reportBatch : Nat := 100

namespace Site

def initial : Site := ⟨[], [], [], [], .idle, [], []⟩

/-- The id of a `uuid4` that no file has. -/
def Fresh (s : Site) (id : Uuid) : Prop := id ∉ s.drafts.map Draft.id ++ s.files.map Published.id

instance (s : Site) (id : Uuid) : Decidable (s.Fresh id) :=
  inferInstanceAs (Decidable (id ∉ s.drafts.map Draft.id ++ s.files.map Published.id))

/-- One step of the command or of `progress`. -/
inductive Step (s : Site) : Site → Prop where
  | opens {id : Uuid} {document : List UInt8} {t : Time} : s.Fresh id →
      Step s { s with
        calls := s.calls ++ [(id, document)]
        drafts := s.drafts ++ [⟨id, document, [], t⟩] }
  | writes {d : Draft} {content : List UInt8} {t : Time} : d ∈ s.drafts → content <+: d.document →
      Step s { s with drafts := Table.put Draft.id { d with content := content, mtime := t } s.drafts }
  /-- `replace`, after the document is written, flushed and synced. -/
  | replaces {d : Draft} : d ∈ s.drafts → d.content = d.document →
      Step s { s with
        drafts := s.drafts.filter (fun d' => d'.id ≠ d.id)
        files := s.files ++ [⟨d.id, d.content, d.mtime⟩] }
  | globs : s.stage = .idle →
      Step s { s with stage := .listing, due := s.files.map Published.id }
  /-- The result of `sorted(checkpoints.glob("*.json"), key=...)`. A file that is renamed
  while the directory is read may be missing, whatever else is found. -/
  | lists {listing : List Published} : s.stage = .listing → (listing.map Published.id).Nodup →
      listing ⊆ s.files → s.due ⊆ listing.map Published.id →
      listing.Pairwise (fun f f' => f.mtime ≤ f'.mtime) →
      Step s { s with
        stage := .uploading ((listing.map Published.id).filter (fun id => id ∉ s.uploaded)) none [] }
  | digests {id : Uuid} {todo : List Uuid} {entries : List Sent} {f : Published} :
      s.stage = .uploading (id :: todo) none entries → Table.find Published.id id s.files = some f →
      Step s { s with stage := .uploading (id :: todo) (some f.content) entries }
  | puts {id : Uuid} {todo : List Uuid} {checked : List UInt8} {entries : List Sent} {f : Published} :
      s.stage = .uploading (id :: todo) (some checked) entries →
      Table.find Published.id id s.files = some f →
      Step s { s with stage := .uploading todo none (entries ++ [⟨id, checked, f.content⟩]) }
  | gathered {entries : List Sent} : s.stage = .uploading [] none entries →
      Step s { s with stage := .reporting entries }
  | reports {entries : List Sent} : s.stage = .reporting entries → entries ≠ [] →
      Step s { s with
        reported := s.reported ++ entries.take reportBatch
        uploaded := s.uploaded ++ (entries.take reportBatch).map Sent.id
        stage := .reporting (entries.drop reportBatch) }
  /-- The server records a batch and its answer is lost. -/
  | unanswered {entries : List Sent} : s.stage = .reporting entries → entries ≠ [] →
      Step s { s with
        reported := s.reported ++ entries.take reportBatch
        stage := .ended }
  | returns : s.stage = .reporting [] → Step s { s with stage := .idle }
  | raises : Step s { s with stage := .ended }

/-- The states reached by steps that meet a condition. -/
inductive Reached (C : Site → Site → Prop) : Site → Prop where
  | initial : Reached C initial
  | step {s s' : Site} : Reached C s → C s s' → s.Step s' → Reached C s'

/-- No file is renamed while the directory is read. -/
def Quiet (s s' : Site) : Prop := s.stage = .listing → s'.files = s.files

/-! ## What every step keeps -/

/-- The upload has read the whole file, both times. -/
def Intact (s : Site) (x : Sent) : Prop :=
  x.checked = x.stored ∧ ∃ f ∈ s.files, f.id = x.id ∧ f.content = x.stored

/-- The ids reported and about to be reported. -/
def taken (s : Site) : List Uuid := s.reported.map Sent.id ++ s.stage.pending

structure Sound (s : Site) : Prop where
  names : (s.drafts.map Draft.id ++ s.files.map Published.id).Nodup
  drafted : ∀ d ∈ s.drafts, (d.id, d.document) ∈ s.calls
  complete : ∀ f ∈ s.files, (f.id, f.content) ∈ s.calls
  /-- The digest under way is that of the file. -/
  checking : ∀ id todo c entries, s.stage = .uploading (id :: todo) (some c) entries →
    ∃ f, Table.find Published.id id s.files = some f ∧ f.content = c
  entries : ∀ x ∈ s.stage.entries, s.Intact x
  reported : ∀ x ∈ s.reported, s.Intact x
  once : s.taken.Nodup
  present : s.stage.pending ⊆ s.files.map Published.id
  uploaded : s.stage ≠ .ended → s.uploaded = s.reported.map Sent.id
  /-- Unless an exception has ended the rounds, every file that was due is taken. -/
  due : s.stage ≠ .ended → s.stage ≠ .listing → s.due ⊆ s.taken


section Kept

variable {s s' : Site}

theorem Intact.mono {x : Sent} (h : s.Intact x) (hfiles : s.files ⊆ s'.files) : s'.Intact x := by
  obtain ⟨heq, f, hf, hid, hcontent⟩ := h
  exact ⟨heq, f, hfiles hf, hid, hcontent⟩

/-- Files are never removed. -/
theorem Step.files (h : s.Step s') : s.files <+: s'.files := by
  cases h with
  | replaces => exact List.prefix_append _ _
  | _ => exact List.prefix_rfl

theorem Sound.file_names (h : s.Sound) : (s.files.map Published.id).Nodup :=
  (List.nodup_append.mp h.names).2.1

theorem Sound.initial : Site.initial.Sound where
  names := List.nodup_nil
  drafted := List.forall_mem_nil _
  complete := List.forall_mem_nil _
  checking := fun _ _ _ _ h => by cases h
  entries := List.forall_mem_nil _
  reported := List.forall_mem_nil _
  once := List.nodup_nil
  present := List.nil_subset _
  uploaded := fun _ => rfl
  due := fun _ _ => List.nil_subset _

/-- A step of the command, which leaves the worker's variables alone. -/
theorem Sound.command (h : s.Sound) {calls : List (Uuid × List UInt8)} {drafts : List Draft}
    {files : List Published} (hnames : (drafts.map Draft.id ++ files.map Published.id).Nodup)
    (hdrafts : ∀ d ∈ drafts, (d.id, d.document) ∈ calls)
    (hcomplete : ∀ f ∈ files, (f.id, f.content) ∈ calls) (hfiles : s.files <+: files) :
    Sound { s with calls := calls, drafts := drafts, files := files } where
  names := hnames
  drafted := hdrafts
  complete := hcomplete
  checking := fun id todo c entries hstage => by
    obtain ⟨f, hf, hc⟩ := h.checking id todo c entries hstage
    obtain ⟨more, rfl⟩ := hfiles
    refine ⟨f, ?_, hc⟩
    simp only [Table.find, List.find?_append] at hf ⊢
    rw [hf]
    rfl
  entries := fun x hx => (h.entries x hx).mono hfiles.subset
  reported := fun x hx => (h.reported x hx).mono hfiles.subset
  once := h.once
  present := fun id hid => List.map_subset Published.id hfiles.subset (h.present hid)
  uploaded := h.uploaded
  due := h.due

/-- A round takes up what it has found and not reported. -/
theorem Sound.list (h : s.Sound) (hlisting : s.stage = .listing) {listing : List Published}
    (hnodup : (listing.map Published.id).Nodup) (hsub : listing ⊆ s.files)
    (hdue : s.due ⊆ listing.map Published.id) :
    Sound { s with
      stage := .uploading ((listing.map Published.id).filter (fun id => id ∉ s.uploaded)) none [] } := by
  have huploaded := h.uploaded (by rw [hlisting]; exact Stage.noConfusion)
  have hreported : (s.reported.map Sent.id).Nodup := (List.nodup_append.mp h.once).1
  refine { h with
    checking := fun _ _ _ _ hstage => by simp at hstage
    entries := List.forall_mem_nil _
    once := ?_
    present := fun id hid => List.map_subset Published.id hsub (List.mem_of_mem_filter hid)
    uploaded := fun _ => huploaded
    due := fun _ _ id hid => ?_ }
  · refine List.nodup_append.mpr ⟨hreported, hnodup.filter _, ?_⟩
    intro id hid id' hid' heq
    have hnot := (List.mem_filter.mp hid').2
    rw [decide_eq_true_eq, huploaded] at hnot
    exact hnot (heq ▸ hid)
  · refine List.mem_append.mpr (or_iff_not_imp_left.mpr fun hnot => ?_)
    refine List.mem_filter.mpr ⟨hdue hid, ?_⟩
    rw [decide_eq_true_eq, huploaded]
    exact hnot

/-- A step of the round that takes up nothing new. -/
theorem Sound.round (h : s.Sound) (hended : s.stage ≠ .ended) (hlisting : s.stage ≠ .listing)
    {stage : Stage} {uploaded : List Uuid} {reported : List Sent}
    (hchecking : ∀ id todo c entries, stage = .uploading (id :: todo) (some c) entries →
      ∃ f, Table.find Published.id id s.files = some f ∧ f.content = c)
    (hentries : ∀ x ∈ stage.entries, s.Intact x) (hreported : ∀ x ∈ reported, s.Intact x)
    (htaken : reported.map Sent.id ++ stage.pending = s.taken)
    (hpending : stage.pending ⊆ s.stage.pending)
    (huploaded : uploaded = reported.map Sent.id) :
    Sound { s with stage := stage, uploaded := uploaded, reported := reported } where
  names := h.names
  drafted := h.drafted
  complete := h.complete
  checking := hchecking
  entries := hentries
  reported := hreported
  once := by
    rw [taken, htaken]
    exact h.once
  present := fun id hid => h.present (hpending hid)
  uploaded := fun _ => huploaded
  due := fun _ _ => by
    rw [taken, htaken]
    exact h.due hended hlisting

/-- An exception ends the rounds. -/
theorem Sound.end (h : s.Sound) {reported : List Sent} (hreported : ∀ x ∈ reported, s.Intact x)
    (htaken : reported.map Sent.id <+: s.taken) :
    Sound { s with stage := .ended, reported := reported } where
  names := h.names
  drafted := h.drafted
  complete := h.complete
  checking := fun _ _ _ _ hstage => by cases hstage
  entries := List.forall_mem_nil _
  reported := hreported
  once := by
    simp only [taken, Stage.pending, List.append_nil]
    exact h.once.sublist htaken.sublist
  present := List.nil_subset _
  uploaded := fun hne => absurd rfl hne
  due := fun hne => absurd rfl hne

theorem Sound.step (h : s.Sound) (hstep : s.Step s') : s'.Sound := by
  cases hstep with
  | @opens id document t hfresh =>
      refine h.command ?_ (fun d hd => ?_) (fun f hf => List.mem_append_left _ (h.complete f hf))
        List.prefix_rfl
      · rw [List.map_append, List.append_assoc]
        exact List.nodup_middle.mpr (List.nodup_cons.mpr ⟨hfresh, h.names⟩)
      · rcases List.mem_append.mp hd with hd | hd
        · exact List.mem_append_left _ (h.drafted d hd)
        · rw [List.mem_singleton.mp hd]
          exact List.mem_append_right _ List.mem_cons_self
  | @writes d content t hd hprefix =>
      refine h.command ?_ (fun d' hd' => ?_) h.complete List.prefix_rfl
      · rw [Table.map_put (fun _ _ hid => hid)]
        exact h.names
      · rcases Table.mem_put.mp hd' with ⟨rfl, -⟩ | ⟨hold, -⟩
        · exact h.drafted d hd
        · exact h.drafted d' hold
  | @replaces d hd hwhole =>
      have hmem : d.id ∈ s.drafts.map Draft.id := List.mem_map_of_mem hd
      obtain ⟨hdrafts, hfiles, hdisjoint⟩ := List.nodup_append.mp h.names
      refine h.command ?_ (fun d' hd' => h.drafted d' (List.mem_of_mem_filter hd')) (fun f hf => ?_)
        (List.prefix_append _ _)
      · rw [List.map_append, ← List.append_assoc]
        refine List.nodup_append.mpr ⟨?_, List.nodup_singleton _, ?_⟩
        · exact h.names.sublist ((List.filter_sublist.map Draft.id).append (List.Sublist.refl _))
        · intro id hid id' hid' heq
          obtain rfl := List.mem_singleton.mp hid'
          subst heq
          rcases List.mem_append.mp hid with hid | hid
          · obtain ⟨d', hd', hsame⟩ := List.mem_map.mp hid
            have hne := (List.mem_filter.mp hd').2
            rw [decide_eq_true_eq] at hne
            exact hne hsame
          · exact hdisjoint _ hmem _ hid rfl
      · rcases List.mem_append.mp hf with hf | hf
        · exact h.complete f hf
        · rw [List.mem_singleton.mp hf, hwhole]
          exact h.drafted d hd
  | globs hidle =>
      refine { h with
        checking := fun _ _ _ _ hstage => by cases hstage
        entries := List.forall_mem_nil _
        once := ?_
        present := List.nil_subset _
        uploaded := fun _ => h.uploaded (by rw [hidle]; exact Stage.noConfusion)
        due := fun _ hne => absurd rfl hne }
      have honce := h.once
      rwa [taken, hidle] at honce
  | lists hlisting hnodup hsub hdue => exact h.list hlisting hnodup hsub hdue
  | @digests id todo entries f hstage hf =>
      have hne : s.stage ≠ .ended := by rw [hstage]; exact Stage.noConfusion
      have hlisting : s.stage ≠ .listing := by rw [hstage]; exact Stage.noConfusion
      refine h.round hne hlisting (fun id' todo' c entries' heq => ?_) ?_ h.reported ?_ ?_ (h.uploaded hne)
      · cases heq
        exact ⟨f, hf, rfl⟩
      · have hentries := h.entries
        rwa [hstage] at hentries
      · rw [taken, hstage]
        rfl
      · rw [hstage]
        exact List.Subset.refl _
  | @puts id todo checked entries f hstage hf =>
      have hne : s.stage ≠ .ended := by rw [hstage]; exact Stage.noConfusion
      have hlisting : s.stage ≠ .listing := by rw [hstage]; exact Stage.noConfusion
      refine h.round hne hlisting (fun id' todo' c entries' heq => by cases heq) (fun x hx => ?_) h.reported
        ?_ ?_ (h.uploaded hne)
      · rcases List.mem_append.mp hx with hx | hx
        · refine h.entries x ?_
          rw [hstage]
          exact hx
        · rw [List.mem_singleton.mp hx]
          obtain ⟨f', hf', hc⟩ := h.checking id todo checked entries hstage
          obtain rfl : f = f' := Option.some.inj (hf.symm.trans hf')
          exact ⟨hc.symm, f, Table.mem_of_find hf, Table.key_of_find hf, rfl⟩
      · rw [taken, hstage]
        simp [Stage.pending]
      · rw [hstage]
        simp [Stage.pending]
  | @gathered entries hstage =>
      have hne : s.stage ≠ .ended := by rw [hstage]; exact Stage.noConfusion
      have hlisting : s.stage ≠ .listing := by rw [hstage]; exact Stage.noConfusion
      refine h.round hne hlisting (fun _ _ _ _ heq => by cases heq) ?_ h.reported ?_ ?_ (h.uploaded hne)
      · have hentries := h.entries
        rwa [hstage] at hentries
      · rw [taken, hstage]
        simp [Stage.pending]
      · rw [hstage]
        simp [Stage.pending]
  | @reports entries hstage hsome =>
      have hne : s.stage ≠ .ended := by rw [hstage]; exact Stage.noConfusion
      have hlisting : s.stage ≠ .listing := by rw [hstage]; exact Stage.noConfusion
      have hentries := h.entries
      rw [hstage] at hentries
      refine h.round hne hlisting (fun _ _ _ _ heq => by cases heq)
        (fun x hx => hentries x (List.mem_of_mem_drop hx)) (fun x hx => ?_) ?_ ?_ ?_
      · rcases List.mem_append.mp hx with hx | hx
        · exact h.reported x hx
        · exact hentries x (List.mem_of_mem_take hx)
      · rw [taken, hstage]
        simp only [Stage.pending, List.map_append, List.append_assoc]
        rw [← List.map_append, List.take_append_drop]
      · rw [hstage]
        exact (List.drop_sublist _ _).map Sent.id |>.subset
      · rw [List.map_append, (h.uploaded hne)]
  | @unanswered entries hstage hsome =>
      have hentries := h.entries
      rw [hstage] at hentries
      refine h.end (fun x hx => ?_) ?_
      · rcases List.mem_append.mp hx with hx | hx
        · exact h.reported x hx
        · exact hentries x (List.mem_of_mem_take hx)
      · rw [taken, hstage, List.map_append]
        exact List.prefix_append_right_inj _ |>.mpr ((List.take_prefix _ _).map Sent.id)
  | returns hstage =>
      have hne : s.stage ≠ .ended := by rw [hstage]; exact Stage.noConfusion
      have hlisting : s.stage ≠ .listing := by rw [hstage]; exact Stage.noConfusion
      refine h.round hne hlisting (fun _ _ _ _ heq => by cases heq) (List.forall_mem_nil _) h.reported ?_
        (List.nil_subset _) (h.uploaded hne)
      rw [taken, hstage]
      rfl
  | raises => exact h.end h.reported (List.prefix_append _ _)

theorem Reached.sound {C : Site → Site → Prop} (h : Reached C s) : s.Sound := by
  induction h with
  | initial => exact .initial
  | step _ _ hstep ih => exact ih.step hstep

end Kept

/-! ## A whole round -/

section Round

variable {C : Site → Site → Prop} {s : Site} (hC : ∀ s s' : Site, s'.files = s.files → C s s')
include hC

theorem Reached.quiet {s' : Site} (h : Reached C s) (hstep : s.Step s') (hfiles : s'.files = s.files) :
    Reached C s' := h.step (hC _ _ hfiles) hstep

/-- The files that are left are uploaded one after the other. -/
theorem Reached.uploads {todo : List Published} {entries : List Sent} (h : Reached C s)
    (hstage : s.stage = .uploading (todo.map Published.id) none entries)
    (hfound : ∀ f ∈ todo, Table.find Published.id f.id s.files = some f) :
    Reached C { s with stage := .uploading [] none (entries ++ todo.map Published.sent) } := by
  induction todo generalizing s entries with
  | nil =>
      rw [List.map_nil, List.append_nil]
      rw [List.map_nil] at hstage
      rwa [← hstage]
  | cons f todo ih =>
      obtain ⟨hf, htodo⟩ := List.forall_mem_cons.mp hfound
      have hdigest := h.quiet hC (.digests hstage hf) rfl
      have hput := hdigest.quiet hC (.puts rfl hf) rfl
      have hrest := ih hput rfl htodo
      rwa [List.append_assoc] at hrest

/-- The batches are reported one after the other. -/
theorem Reached.batches {entries : List Sent} (h : Reached C s) (hstage : s.stage = .reporting entries) :
    Reached C { s with
      reported := s.reported ++ entries
      uploaded := s.uploaded ++ entries.map Sent.id
      stage := .reporting [] } := by
  induction hlength : entries.length using Nat.strongRecOn generalizing s entries with
  | ind n ih =>
      by_cases hnil : entries = []
      · subst hnil
        rw [List.map_nil, List.append_nil, List.append_nil, ← hstage]
        exact h
      · have hpos := List.length_pos_iff.mpr hnil
        have hless : (entries.drop reportBatch).length < n := by
          rw [List.length_drop, reportBatch]
          omega
        have hrest := ih _ hless (h.quiet hC (.reports hstage hnil) rfl) rfl rfl
        rwa [List.append_assoc, List.append_assoc, ← List.map_append, List.take_append_drop] at hrest

/-- A round in which nothing raises uploads and reports what it has listed and not reported
before. -/
theorem Reached.round {listing : List Published} (h : Reached C s) (hstage : s.stage = .listing)
    (hnodup : (listing.map Published.id).Nodup) (hsub : listing ⊆ s.files)
    (hdue : s.due ⊆ listing.map Published.id)
    (hsorted : listing.Pairwise (fun f f' => f.mtime ≤ f'.mtime)) :
    Reached C { s with
      reported := s.reported ++ (listing.filter (fun f => f.id ∉ s.uploaded)).map Published.sent
      uploaded := s.uploaded ++ (listing.filter (fun f => f.id ∉ s.uploaded)).map Published.id
      stage := .idle } := by
  have hkeyed : Table.Keyed Published.id s.files := h.sound.file_names
  have hlists := h.quiet hC (.lists hstage hnodup hsub hdue hsorted) rfl
  have hfilter : (listing.map Published.id).filter (fun id => id ∉ s.uploaded) =
      (listing.filter (fun f => f.id ∉ s.uploaded)).map Published.id := List.filter_map
  rw [hfilter] at hlists
  have huploads := hlists.uploads hC rfl
    (fun f hf => hkeyed.find_of_mem (hsub (List.mem_of_mem_filter hf)))
  have hbatches := (huploads.quiet hC (.gathered rfl) rfl).batches hC rfl
  have hids : ∀ files : List Published, (files.map Published.sent).map Sent.id = files.map Published.id :=
    fun files => List.map_map
  rw [List.nil_append, hids] at hbatches
  exact hbatches.quiet hC (.returns rfl) rfl

end Round

/-! ## The order of the reports -/

section Order

variable {s s' : Site}

/-- The files were written one after the other. -/
def Sequential (s : Site) : Prop := s.files.Pairwise (fun f f' => f.mtime < f'.mtime)

/-- Sorted by time, the files are in the order of their renames. -/
theorem Sequential.listing (h : s.Sequential) {listing : List Published} (hperm : listing.Perm s.files)
    (hsorted : listing.Pairwise (fun f f' => f.mtime ≤ f'.mtime)) : listing = s.files := by
  have htimes : (s.files.map Published.mtime).Nodup :=
    List.pairwise_map.mpr (h.imp fun hlt => Int.ne_of_lt hlt)
  refine List.Perm.eq_of_pairwise (fun f f' hf hf' hle hle' => ?_) hsorted
    (h.imp fun hlt => Int.le_of_lt hlt) hperm
  exact List.inj_on_of_nodup_map htimes (hperm.subset hf) hf' (Int.le_antisymm hle hle')

/-- Only a new round takes up files. -/
theorem Step.taken (h : s.Step s') : s'.taken <+: s.taken ∨ s.stage = .listing ∧ s'.files = s.files ∧
    ∃ listing : List Published, (listing.map Published.id).Nodup ∧ listing ⊆ s.files ∧
      s.due ⊆ listing.map Published.id ∧ listing.Pairwise (fun f f' => f.mtime ≤ f'.mtime) ∧
      s'.taken = s.reported.map Sent.id ++
        (listing.map Published.id).filter (fun id => id ∉ s.uploaded) := by
  cases h with
  | opens => exact .inl List.prefix_rfl
  | writes => exact .inl List.prefix_rfl
  | replaces => exact .inl List.prefix_rfl
  | globs hidle =>
      refine .inl ?_
      simp only [Site.taken, hidle, Stage.pending]
      exact List.prefix_rfl
  | @lists listing hlisting hnodup hsub hdue hsorted =>
      exact .inr ⟨hlisting, rfl, listing, hnodup, hsub, hdue, hsorted, rfl⟩
  | digests hstage =>
      refine .inl ?_
      simp only [Site.taken, hstage, Stage.pending]
      exact List.prefix_rfl
  | puts hstage =>
      refine .inl ?_
      simp only [Site.taken, hstage, Stage.pending, List.map_append, List.map_cons, List.map_nil,
        List.append_assoc, List.singleton_append]
      exact List.prefix_rfl
  | gathered hstage =>
      refine .inl ?_
      simp only [Site.taken, hstage, Stage.pending, List.append_nil]
      exact List.prefix_rfl
  | reports hstage =>
      refine .inl ?_
      simp only [Site.taken, hstage, Stage.pending, List.map_append, List.append_assoc]
      rw [← List.map_append, List.take_append_drop]
  | unanswered hstage =>
      refine .inl ?_
      simp only [Site.taken, hstage, Stage.pending, List.map_append, List.append_nil]
      exact (List.prefix_append_right_inj _).mpr ((List.take_prefix _ _).map Sent.id)
  | returns hstage =>
      refine .inl ?_
      simp only [Site.taken, hstage, Stage.pending, List.map_nil]
      exact List.prefix_rfl
  | raises =>
      refine .inl ?_
      simp only [Site.taken, Stage.pending, List.append_nil]
      exact List.prefix_append _ _

/-- In a quiet run a listing has all files. -/
theorem Reached.listing (h : Reached Quiet s) (hlisting : s.stage = .listing) :
    s.due = s.files.map Published.id := by
  induction h with
  | initial => cases hlisting
  | @step s s' _ hquiet hstep ih =>
      cases hstep with
      | globs => rfl
      | replaces =>
          have hsame := congrArg List.length (hquiet hlisting)
          simp at hsame
      | opens => exact ih hlisting
      | writes => exact ih hlisting
      | _ => cases hlisting

/-- A list without the entries of its first part is the second part. -/
theorem filter_prefix_eq {α : Type} [DecidableEq α] {l₁ l₂ : List α} (h : (l₁ ++ l₂).Nodup) :
    (l₁ ++ l₂).filter (fun x => x ∉ l₁) = l₂ := by
  have hdisjoint := (List.nodup_append.mp h).2.2
  have hfirst : l₁.filter (fun x => x ∉ l₁) = [] :=
    List.filter_eq_nil_iff.mpr (fun x hx => by simpa using hx)
  have hsecond : l₂.filter (fun x => x ∉ l₁) = l₂ :=
    List.filter_eq_self.mpr (fun x hx => by simpa using fun hx' => hdisjoint x hx' x hx rfl)
  rw [List.filter_append, hfirst, hsecond, List.nil_append]

/-- What is taken up is always the first of the files. -/
theorem Reached.ordered (h : Reached Quiet s) (hseq : s.Sequential) :
    s.taken <+: s.files.map Published.id := by
  induction h with
  | initial => exact List.nil_prefix
  | @step s s' hs _ hstep ih =>
      have hseq' : s.Sequential := hseq.sublist hstep.files.sublist
      have hprev := ih hseq'
      rcases hstep.taken with htaken |
        ⟨hlisting, hfiles, listing, hnodup, hsub, hdue, hsorted, htaken⟩
      · exact htaken.trans (hprev.trans (hstep.files.map Published.id))
      · -- The round takes up what is left after the files that are reported.
        have hsound := hs.sound
        rw [hs.listing hlisting] at hdue
        have hids : (listing.map Published.id).Perm (s.files.map Published.id) :=
          (List.perm_ext_iff_of_nodup hnodup hsound.file_names).mpr
            (fun id => ⟨fun hid => List.map_subset Published.id hsub hid, fun hid => hdue hid⟩)
        have hperm : listing.Perm s.files :=
          (List.subperm_of_subset (List.Nodup.of_map _ hnodup) hsub).perm_of_length_le
            (by simpa using hids.length_eq.ge)
        have heq := hseq'.listing hperm hsorted
        have huploaded := hsound.uploaded (by rw [hlisting]; exact Stage.noConfusion)
        obtain ⟨rest, hrest⟩ := hprev
        simp only [Site.taken, hlisting, Stage.pending, List.append_nil] at hrest
        have hnodup' := hsound.file_names
        rw [← hrest] at hnodup'
        rw [htaken, heq, huploaded, hfiles, ← hrest, filter_prefix_eq hnodup']

end Order

end Site

/-! ## The executions of the fleet -/

/-- A checkpoint file under its name. -/
def checkpointFile (id : Uuid) (content : List UInt8) : File where
  name := str (id.text ++ ".json")
  content := content
  named := by
    have hchars : ∀ c ∈ (id.text ++ ".json").toList, Text.isHex c = true ∨ c = '-' ∨ c ∈ ".json".toList := by
      intro c hc
      rw [String.toList_append] at hc
      rcases List.mem_append.mp hc with hc | hc
      · rcases (Uuid.fits_chars (Uuid.idPattern_text id)).2 _ hc with hhex | heq
        · exact .inl hhex
        · exact .inr (.inl heq)
      · exact .inr (.inr hc)
    refine isName_str ?_ (fun h => absurd (hchars _ h) (by decide)) (fun h => absurd (hchars _ h) (by decide))
    have hlength : 2 < ".json".toList.length := by decide
    rw [String.toList_append, List.length_append]
    omega

theorem upload_checkpointFile [Hashlib] (l : Lease) (kind : ArtifactKind) (unique id : Uuid)
    (content : List UInt8) : upload l kind unique (checkpointFile id content)
      = some (entryOf l kind unique (id.text ++ ".json") content) :=
  upload_eq_some.mpr ⟨_, encode_str _, rfl⟩

def Published.file (f : Published) : File := checkpointFile f.id f.content

namespace Site

variable [Hashlib]

/-- The execution `e` has published the files, and has sent a request for each report. -/
structure Shown (s : Site) (fleet : Fleet) (e : Exec) : Prop where
  mem : e ∈ fleet.execs
  live : e.live = true
  running : e.phase = .running
  files : e.files = s.files.map Published.file
  sent : ∀ x ∈ s.reported, ∃ r unique, .rpc .reportProgress r ∈ fleet.sent ∧ e.Names r ∧
    ∃ entry ∈ r.artifacts.elems,
      upload e.lease .checkpoint unique (checkpointFile x.id x.checked) = some entry

omit [Hashlib] in
/-- A step renames a file, or has a batch recorded, or neither can be seen. -/
theorem Step.visible {s s' : Site} (h : s.Step s') :
    s'.reported = s.reported ∧ (s'.files = s.files ∨ ∃ f, s'.files = s.files ++ [f]) ∨
      s'.files = s.files ∧ ∃ batch, s'.reported = s.reported ++ batch := by
  cases h with
  | replaces => exact .inl ⟨rfl, .inr ⟨_, rfl⟩⟩
  | reports => exact .inr ⟨rfl, _, rfl⟩
  | unanswered => exact .inr ⟨rfl, _, rfl⟩
  | _ => exact .inl ⟨rfl, .inl rfl⟩

variable [Sha256] {C : Fleet → Label → Prop}

/-- Each step is a step of the fleet, or none. `w` has the identifiers of the requests. -/
theorem Shown.step {s s' : Site} {fleet : Fleet} {e : Exec} (w : Request) (h : s.Shown fleet e)
    (hfleet : Fleet.Reached C fleet) (hC : ∀ fleet id a, a = .publish ∨ a = .call → C fleet (.move id a))
    (hsound : s'.Sound) (hstep : s.Step s') :
    ∃ fleet' e', Fleet.Reached C fleet' ∧ e'.lease = e.lease ∧ s'.Shown fleet' e' := by
  rcases hstep.visible with ⟨hreported, hfiles | ⟨f, hfiles⟩⟩ | ⟨hfiles, batch, hreported⟩
  · exact ⟨fleet, e, hfleet, rfl, h.mem, h.live, h.running, hfiles ▸ h.files, hreported ▸ h.sent⟩
  · have hmove : Move fleet e .publish { e with files := e.files ++ [f.file] } [] := .publish h.live
    refine ⟨_, { e with files := e.files ++ [f.file] },
      hfleet.step (hC _ _ _ (.inl rfl)) (.move h.mem hmove), rfl, ?_, h.live, h.running, ?_,
      fun x hx => ?_⟩
    · exact Table.mem_put.mpr (.inl ⟨rfl, e, h.mem, rfl⟩)
    · rw [hfiles, List.map_append, ← h.files]
      rfl
    · obtain ⟨r, unique, hr, hentry⟩ := h.sent x (hreported ▸ hx)
      exact ⟨r, unique, List.mem_append_left _ hr, hentry⟩
  · let entry (x : Sent) : Artifact := entryOf e.lease .checkpoint x.id (x.id.text ++ ".json") x.checked
    have hentry : ∀ x, upload e.lease .checkpoint x.id (checkpointFile x.id x.checked) = some (entry x) :=
      fun x => upload_checkpointFile _ _ _ _ _
    let r : Request := { w with
      attemptID := e.lease.attemptID.text
      leaseToken := e.lease.leaseToken.text
      artifacts := some (batch.map entry) }
    have hmove : Move fleet e .call e [.rpc .reportProgress r] := by
      refine .report (.inl h.running) ⟨rfl, rfl⟩ (fun y hy => ?_)
      obtain ⟨x, hx, rfl⟩ := List.mem_map.mp hy
      obtain ⟨heq, f, hf, hid, hcontent⟩ := hsound.reported x (hreported ▸ List.mem_append_right _ hx)
      refine ⟨.checkpoint, x.id, checkpointFile x.id x.checked, hentry x, fun _ => ?_⟩
      rw [h.files, ← hfiles, heq, ← hid, ← hcontent]
      exact List.mem_map_of_mem hf
    refine ⟨_, e, hfleet.step (hC _ _ _ (.inr rfl)) (.move h.mem hmove), rfl, ?_, h.live, h.running,
      hfiles ▸ h.files, fun x hx => ?_⟩
    · exact Table.mem_put.mpr (.inl ⟨rfl, e, h.mem, rfl⟩)
    · rw [hreported] at hx
      rcases List.mem_append.mp hx with hx | hx
      · obtain ⟨r', unique, hr, hentry⟩ := h.sent x hx
        exact ⟨r', unique, List.mem_append_left _ hr, hentry⟩
      · exact ⟨r, x.id, List.mem_append_right _ List.mem_cons_self, ⟨rfl, rfl⟩, entry x,
          List.mem_map_of_mem hx, hentry x⟩

end Site

end Worker

/-! ## A run with an unfinished checkpoint -/

namespace Sample

def firstFile : Worker.Published := ⟨Uuid.ID 1, [1], 20⟩

def secondFile : Worker.Published := ⟨Uuid.ID 2, [2, 2], 40⟩

/-- The third checkpoint is half written. -/
def thirdDraft : Worker.Draft := ⟨Uuid.ID 3, [3, 3], [3], 60⟩

/-- Two rounds have reported a checkpoint each, and the third is not published. -/
def site : Worker.Site where
  calls := [(Uuid.ID 1, [1]), (Uuid.ID 2, [2, 2]), (Uuid.ID 3, [3, 3])]
  drafts := [thirdDraft]
  files := [firstFile, secondFile]
  uploaded := [Uuid.ID 1, Uuid.ID 2]
  stage := .idle
  due := [Uuid.ID 1, Uuid.ID 2]
  reported := [firstFile.sent, secondFile.sent]

theorem sequential : site.Sequential := by
  simp [Worker.Site.Sequential, site, firstFile, secondFile]

section Run

open Worker (Site Draft Published)

variable {C : Site → Site → Prop} (hC : ∀ s s', s.Quiet s' → C s s') {s : Site}
include hC

theorem idle_step {s' : Site} (h : Site.Reached C s) (hidle : s.stage = .idle) (hstep : s.Step s') :
    Site.Reached C s' :=
  h.step (hC _ _ (fun hlisting => by rw [hidle] at hlisting; cases hlisting)) hstep

/-- A call of `checkpoint` between two rounds. -/
theorem publish_reached (h : Site.Reached C s) (hidle : s.stage = .idle) (hdrafts : s.drafts = [])
    (f : Published) (hfresh : s.Fresh f.id) :
    Site.Reached C { s with calls := s.calls ++ [(f.id, f.content)], files := s.files ++ [f] } := by
  have hopens : Site.Reached C { s with
      calls := s.calls ++ [(f.id, f.content)], drafts := [⟨f.id, f.content, [], f.mtime⟩] } := by
    have hstep := idle_step hC h hidle (@Site.Step.opens s f.id f.content f.mtime hfresh)
    rwa [hdrafts] at hstep
  have hwrites : Site.Reached C { s with
      calls := s.calls ++ [(f.id, f.content)], drafts := [⟨f.id, f.content, f.content, f.mtime⟩] } := by
    have hstep := idle_step hC hopens hidle
      (@Site.Step.writes _ ⟨f.id, f.content, [], f.mtime⟩ f.content f.mtime List.mem_cons_self List.prefix_rfl)
    simpa [Table.put] using hstep
  have hstep := idle_step hC hwrites hidle
    (@Site.Step.replaces _ ⟨f.id, f.content, f.content, f.mtime⟩ List.mem_cons_self rfl)
  simpa [hdrafts] using hstep

/-- A round that finds all files. -/
theorem round_reached (h : Site.Reached C s) (hidle : s.stage = .idle) (hseq : s.Sequential) :
    Site.Reached C { s with
      due := s.files.map Published.id
      reported := s.reported ++ (s.files.filter (fun f => f.id ∉ s.uploaded)).map Published.sent
      uploaded := s.uploaded ++ (s.files.filter (fun f => f.id ∉ s.uploaded)).map Published.id
      stage := .idle } := by
  have hfiles : ∀ s s' : Site, s'.files = s.files → C s s' := fun s s' h => hC s s' (fun _ => h)
  exact (h.quiet hfiles (.globs hidle) rfl).round hfiles rfl h.sound.file_names (List.Subset.refl _)
    (List.Subset.refl _) (hseq.imp fun hlt => Int.le_of_lt hlt)

theorem site_reached : Site.Reached C site := by
  have h1 := publish_reached hC .initial rfl rfl firstFile (by decide)
  have h2 := round_reached hC h1 rfl (List.pairwise_singleton _ _)
  have h3 := publish_reached hC h2 rfl rfl secondFile (by decide)
  have h4 := round_reached hC h3 rfl sequential
  have h5 := idle_step hC h4 rfl (@Site.Step.opens _ (Uuid.ID 3) [3, 3] 50 (by decide))
  exact idle_step hC h5 rfl
    (@Site.Step.writes _ ⟨Uuid.ID 3, [3, 3], [], 50⟩ [3] 60 List.mem_cons_self (by decide))

end Run

end Sample

/-- Whatever the command and the worker do, and wherever one of them stops, the server has
recorded only whole documents that `checkpoint` was called with, under the digest of what
was stored, and none twice. Between two rounds it has recorded every file that was there
when the last round began. -/
theorem checkpoints_delivered (s : Worker.Site) (hs : Worker.Site.Reached (fun _ _ => True) s) :
    (∀ x ∈ s.reported, x.checked = x.stored ∧ (x.id, x.stored) ∈ s.calls) ∧
      (s.reported.map Worker.Sent.id).Nodup ∧
      (s.stage = .idle → s.due ⊆ s.reported.map Worker.Sent.id) := by
  have hsound := hs.sound
  refine ⟨fun x hx => ?_, (List.nodup_append.mp hsound.once).1, fun hidle => ?_⟩
  · obtain ⟨heq, f, hf, hid, hcontent⟩ := hsound.reported x hx
    exact ⟨heq, hid ▸ hcontent ▸ hsound.complete f hf⟩
  · have hdue := hsound.due (by rw [hidle]; exact Worker.Stage.noConfusion)
      (by rw [hidle]; exact Worker.Stage.noConfusion)
    simpa only [Worker.Site.taken, hidle, Worker.Stage.pending, List.append_nil] using hdue

theorem checkpoints_delivered_half_written :
    Worker.Site.Reached (fun _ _ => True) Sample.site ∧
      [Uuid.ID 1, Uuid.ID 2] ⊆ Sample.site.reported.map Worker.Sent.id :=
  have hs : Worker.Site.Reached (fun _ _ => True) Sample.site :=
    Sample.site_reached (fun _ _ _ => trivial)
  ⟨hs, (checkpoints_delivered Sample.site hs).2.2 rfl⟩

/-- If no file is renamed while the worker reads the directory, and the files were written
one after the other, then the server has recorded the first of them, in their order and
without a gap: its newest checkpoint is the latest of those it has. -/
theorem checkpoints_in_order (s : Worker.Site) (hs : Worker.Site.Reached Worker.Site.Quiet s)
    (hseq : s.Sequential) : s.reported.map Worker.Sent.id <+: s.files.map Worker.Published.id :=
  (List.prefix_append _ _).trans (hs.ordered hseq)

theorem checkpoints_in_order_half_written :
    Worker.Site.Reached Worker.Site.Quiet Sample.site ∧ Sample.site.Sequential ∧
      Sample.site.reported.map Worker.Sent.id <+: Sample.site.files.map Worker.Published.id :=
  have hs : Worker.Site.Reached Worker.Site.Quiet Sample.site := Sample.site_reached (fun _ _ h => h)
  ⟨hs, Sample.sequential, checkpoints_in_order Sample.site hs Sample.sequential⟩

/-- What the command and `progress` do together, the fleet can do from any state where the
execution runs: it publishes the same files, and for each entry the server has recorded
it has sent the upload of a published file. -/
theorem progress_simulated [Sha256] [Hashlib] (s : Worker.Site) (hs : Worker.Site.Reached (fun _ _ => True) s)
    (w : Request) (fleet : Worker.Fleet) (hfleet : Worker.Fleet.Reached (fun _ _ => True) fleet)
    (e : Worker.Exec) (he : Worker.Site.initial.Shown fleet e) :
    ∃ fleet' e', Worker.Fleet.Reached (fun _ _ => True) fleet' ∧ e'.lease = e.lease ∧
      s.Shown fleet' e' := by
  induction hs with
  | initial => exact ⟨fleet, e, hfleet, rfl, he⟩
  | step hprev htrue hstep ih =>
      obtain ⟨fleet₁, e₁, hfleet₁, hlease₁, hshown⟩ := ih
      obtain ⟨fleet₂, e₂, hfleet₂, hlease₂, hshown₂⟩ :=
        hshown.step w hfleet₁ (fun _ _ _ _ => trivial) (hprev.step htrue hstep).sound hstep
      exact ⟨fleet₂, e₂, hfleet₂, hlease₂.trans hlease₁, hshown₂⟩

theorem progress_simulated_half_written :
    ∃ fleet' e', @Worker.Fleet.Reached Sample.digest Sample.hashlib (fun _ _ => True) fleet' ∧
      e'.lease = Sample.firstLease ∧ @Worker.Site.Shown Sample.hashlib Sample.site fleet' e' :=
  @progress_simulated Sample.digest Sample.hashlib Sample.site (Sample.site_reached (fun _ _ _ => trivial))
    (Sample.request "9") _ (Sample.reached_first (fun _ _ _ => trivial))
    (Sample.executing Sample.firstLease .running true [])
    (@Worker.Site.Shown.mk Sample.hashlib _ _ _ List.mem_cons_self rfl rfl rfl (List.forall_mem_nil _))

end Rungrid
