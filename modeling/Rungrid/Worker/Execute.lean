-- SUMMARY: `execute` as a script: the calls it makes one after the other, and what has been reported when it completes.
import Rungrid.Base.Script
import Rungrid.Worker.Outputs
import Rungrid.Worker.Payloads

/-!
# Executing a lease

`execute` of `worker/python/rungrid_worker/main.py`. Every call to the server, to the
object store and to the operating system can raise, and then the `except` branch is all
that is left of the execution. What the queue of the log lines and the directory of the
checkpoints have is asked when `progress` looks.

`CompleteAttempt` is the last call of the `try` branch. Where it is made, every report
before it has returned.
-/

namespace Rungrid

namespace Worker

open Dumps (Str)

/-! ## Batches -/

/-- `entries[index:index + 100] for index in range(0, len(entries), 100)`. -/
def batches {α : Type} (entries : List α) : List (List α) :=
  if _h : entries = [] then [] else entries.take 100 :: batches (entries.drop 100)
termination_by entries.length
decreasing_by
  have := List.length_pos_iff.mpr _h
  simp only [List.length_drop]
  omega

/-- The batches are the entries in order, at most a hundred in each. -/
theorem batches_spec {α : Type} (entries : List α) :
    (batches entries).flatten = entries ∧ ∀ b ∈ batches entries, b.length ≤ 100 := by
  by_cases hnil : entries = []
  · rw [batches, dif_pos hnil, hnil]
    exact ⟨rfl, List.forall_mem_nil _⟩
  · obtain ⟨hflatten, hlength⟩ := batches_spec (entries.drop 100)
    rw [batches, dif_neg hnil]
    refine ⟨?_, List.forall_mem_cons.mpr ⟨by simp, hlength⟩⟩
    rw [List.flatten_cons, hflatten, List.take_append_drop]
termination_by entries.length
decreasing_by
  have := List.length_pos_iff.mpr hnil
  simp only [List.length_drop]
  omega

/-- What the command leaves: its checkpoint directory, the log, the output directory and
`process.returncode`. -/
structure Left where
  checkpoints : List File
  log : List UInt8
  outputs : Directory
  returncode : Int
  names : (checkpoints.map File.name).Nodup
  distinct : Distinct outputs

/-- `log_path`. -/
def logFile (log : List UInt8) : File := ⟨str "execution.log", log, by decide⟩

namespace Execute

variable [Hashlib]

/-! ## The operations -/

/-- A file that is put into the object store, and the entry for it. -/
structure Put (l : Lease) where
  kind : ArtifactKind
  unique : Uuid
  file : File
  entry : Artifact
  uploads : upload l kind unique file = some entry

/-- What `execute` asks for. -/
inductive Ask (l : Lease) where
  | alive
  /-- The directories, the environment and the checkpoint to resume from. -/
  | prepare
  | popen
  /-- The lines `progress` takes out of the queue. -/
  | lines
  /-- `sorted(checkpoints.glob("*.json"), key=...)`. -/
  | glob
  /-- The `uuid4` of an object key. -/
  | draw
  /-- The attempts to put an object, which raise if the last of them does. -/
  | put (p : Put l)
  | call (m : Method) (p : Payload)
  /-- `str(exc)`. -/
  | exception

/-- The type of the results. -/
def Ask.Answer {l : Lease} : Ask l → Type
  | .alive => Bool
  | .lines => List Str
  | .glob => List File
  | .draw => Uuid
  | .exception => Str
  | .prepare | .popen | .put _ | .call _ _ => Unit

variable (l : Lease)

abbrev Program (α : Type) : Type := Script (Ask l) Ask.Answer α

abbrev Trace : Type := List (Script.Event (Ask l) Ask.Answer)

def alive : Program l Bool := Script.op (Ask.alive : Ask l)

def prepare : Program l Unit := Script.op (Ask.prepare : Ask l)

def popen : Program l Unit := Script.op (Ask.popen : Ask l)

def lines : Program l (List Str) := Script.op (Ask.lines : Ask l)

def glob : Program l (List File) := Script.op (Ask.glob : Ask l)

def draw : Program l Uuid := Script.op (Ask.draw : Ask l)

def put (p : Put l) : Program l Unit := Script.op (Ask.put p)

/-- `self.rpc.call`. -/
def call (m : Method) (p : Payload) : Program l Unit := Script.op (Ask.call m p : Ask l)

def exception : Program l Str := Script.op (Ask.exception : Ask l)

/-! ## The program -/

/-- `artifacts.upload`. -/
def uploadFile (kind : ArtifactKind) (file : File) : Program l Artifact := do
  let unique ← draw l
  match h : upload l kind unique file with
  | none => .raise
  | some entry =>
      put l ⟨kind, unique, file, entry, h⟩
      return entry

/-- The reports of the entries. -/
def report (entries : List Artifact) : Program l (List Unit) :=
  Script.each (fun batch => call l .reportProgress (.artifacts batch)) (batches entries)

/-- The reports of `progress`, if there is something to report. -/
def reportProgress (batch : List Str) (entries : List Artifact) : Program l (List Unit) :=
  if batch ≠ [] ∨ entries ≠ [] then do
    call l .reportProgress (.logs batch)
    report l entries
  else return []

/-- `progress`. `uploaded` has the names of the paths in the set of that name. It is looked
at by the next call, which is made only if this one returns. -/
def progress (uploaded : List Str) : Program l (List Str) := do
  let batch ← lines l
  let listing ← glob l
  let entries ← Script.each (uploadFile l .checkpoint) (listing.filter (fun f => f.name ∉ uploaded))
  let _ ← reportProgress l batch entries
  return uploaded ++ (listing.filter (fun f => f.name ∉ uploaded)).map File.name

/-- The log and the outputs are uploaded and reported. -/
def collect (left : Left) : Program l (List Unit) := do
  let log ← uploadFile l .log (logFile left.log)
  let outputs ← Script.each (uploadFile l .output) ((outputFiles left.outputs).map Prod.snd)
  report l (log :: outputs)

/-- The result of the command. -/
def result (left : Left) : Program l Unit :=
  if left.returncode = 0 then call l .completeAttempt (.result 0 (str ""))
  else call l .failAttempt (.result left.returncode (str "command exited nonzero"))

/-- What follows the loop. -/
def finish (left : Left) (uploaded : List Str) : Program l Unit := do
  let going ← alive l
  if going then
    let _ ← progress l uploaded
    let _ ← collect l left
    result l left
  else return

/-- The loop over `process.poll()`, which is None the given number of times. -/
def running (left : Left) : Nat → List Str → Program l Unit
  | 0, uploaded => finish l left uploaded
  | rounds + 1, uploaded => do
      let going ← alive l
      if going then
        let uploaded ← progress l uploaded
        running left rounds uploaded
      else return

/-- The command is started. -/
def launching (left : Left) (rounds : Nat) : Program l Unit := do
  call l .startAttempt .empty
  prepare l
  let going ← alive l
  if going then
    popen l
    running l left rounds []
  else return

/-- The `try` branch. -/
def attempt (left : Left) (rounds : Nat) : Program l Unit := do
  let going ← alive l
  if going then launching l left rounds else return

/-- The `except` branch. -/
def failing : Program l Unit := do
  let text ← exception l
  let going ← alive l
  if going then (call l .failAttempt (.result (-1) (text.take 8192))).handle (.done ())
  else return

/-- `execute`. -/
def execute (left : Left) (rounds : Nat) : Program l Unit := (attempt l left rounds).handle (failing l)

variable {l}

/-! ## What a run has done -/

/-- The files put into the object store. -/
def puts (τ : Trace l) : List (Put l) :=
  τ.filterMap fun e => match e with
    | ⟨.put p, some _⟩ => some p
    | _ => none

/-- The listings of the checkpoint directory. -/
def listings (τ : Trace l) : List (List File) :=
  τ.filterMap fun e => match e with
    | ⟨.glob, some listing⟩ => some listing
    | _ => none

/-- The entries of the reports. -/
def reported (τ : Trace l) : List Artifact :=
  τ.flatMap fun e => match e with
    | ⟨.call .reportProgress p, _⟩ => p.request.artifacts.elems
    | _ => []

@[simp] theorem puts_append (τ₁ τ₂ : Trace l) : puts (τ₁ ++ τ₂) = puts τ₁ ++ puts τ₂ :=
  List.filterMap_append

@[simp] theorem listings_append (τ₁ τ₂ : Trace l) : listings (τ₁ ++ τ₂) = listings τ₁ ++ listings τ₂ :=
  List.filterMap_append

@[simp] theorem reported_append (τ₁ τ₂ : Trace l) : reported (τ₁ ++ τ₂) = reported τ₁ ++ reported τ₂ :=
  List.flatMap_append

theorem mem_reported {τ : Trace l} {a : Artifact} (h : a ∈ reported τ) :
    ∃ p x, ⟨.call .reportProgress p, x⟩ ∈ τ ∧ a ∈ p.request.artifacts.elems := by
  obtain ⟨⟨r, x⟩, hmem, ha⟩ := List.mem_flatMap.mp h
  cases r with
  | call m p =>
      cases m with
      | reportProgress => exact ⟨p, x, hmem, ha⟩
      | _ => cases ha
  | _ => cases ha

/-! ## The parts of a run -/

section Parts

open Script (Runs Event returned_op returned_bind runs_bind)

variable {τ : Trace l}

theorem uploadFile_spec {kind : ArtifactKind} {file : File} {entry : Artifact}
    (h : Runs (uploadFile l kind file) τ (.returned entry)) :
    (∃ p, puts τ = [p] ∧ p.kind = kind ∧ p.file = file ∧ p.entry = entry) ∧ listings τ = [] ∧
      reported τ = [] := by
  obtain ⟨τ₁, τ₂, unique, rfl, hdraw, hrest⟩ := returned_bind h
  obtain rfl := returned_op (r := Ask.draw) hdraw
  split at hrest
  · cases hrest
  · obtain ⟨τ₃, τ₄, _, rfl, hput, hdone⟩ := returned_bind hrest
    obtain rfl := returned_op (r := Ask.put _) hput
    cases hdone
    exact ⟨⟨_, rfl, rfl, rfl, rfl⟩, rfl, rfl⟩

theorem uploadAll_spec {kind : ArtifactKind} {files : List File} {entries : List Artifact}
    (h : Runs (Script.each (uploadFile l kind) files) τ (.returned entries)) :
    (puts τ).map (fun p => (p.kind, p.file)) = files.map (Prod.mk kind) ∧
      (puts τ).map Put.entry = entries ∧ listings τ = [] ∧ reported τ = [] := by
  refine Script.each_induct (M := fun files τ entries =>
    (puts τ).map (fun p => (p.kind, p.file)) = files.map (Prod.mk kind) ∧
      (puts τ).map Put.entry = entries ∧ listings τ = [] ∧ reported τ = []) ⟨rfl, rfl, rfl, rfl⟩ ?_ h
  rintro file files τ₁ τ₂ entry entries hfirst ⟨hfiles, hentries, hlist, hreport⟩
  obtain ⟨⟨p, hp, hkind, hfile, hentry⟩, hlist₁, hreport₁⟩ := uploadFile_spec hfirst
  refine ⟨?_, ?_, ?_, ?_⟩
  · rw [puts_append, hp, List.map_append, hfiles, List.map_cons, List.map_nil, hkind, hfile]
    rfl
  · rw [puts_append, hp, List.map_append, hentries, List.map_cons, List.map_nil, hentry]
    rfl
  · rw [listings_append, hlist₁, hlist, List.append_nil]
  · rw [reported_append, hreport₁, hreport, List.append_nil]

theorem report_spec {entries : List Artifact} {us : List Unit}
    (h : Runs (report l entries) τ (.returned us)) :
    puts τ = [] ∧ listings τ = [] ∧ reported τ = entries := by
  have hspec : puts τ = [] ∧ listings τ = [] ∧ reported τ = (batches entries).flatten := by
    refine Script.each_induct (M := fun bs τ _ =>
      puts τ = [] ∧ listings τ = [] ∧ reported τ = bs.flatten) ⟨rfl, rfl, rfl⟩ ?_ h
    rintro batch bs τ₁ τ₂ _ _ hcall ⟨hputs, hlist, hreport⟩
    obtain rfl := returned_op (r := Ask.call _ _) hcall
    exact ⟨hputs, hlist, congrArg (batch ++ ·) hreport⟩
  rwa [(batches_spec entries).1] at hspec

theorem reportProgress_spec {batch : List Str} {entries : List Artifact} {us : List Unit}
    (h : Runs (reportProgress l batch entries) τ (.returned us)) :
    puts τ = [] ∧ listings τ = [] ∧ reported τ = entries := by
  unfold reportProgress at h
  split at h
  · obtain ⟨τ₁, τ₂, _, rfl, hcall, hrest⟩ := returned_bind h
    obtain rfl := returned_op (r := Ask.call _ _) hcall
    obtain ⟨hputs, hlist, hreport⟩ := report_spec hrest
    exact ⟨hputs, hlist, hreport⟩
  · rename_i hempty
    push Not at hempty
    cases h
    exact ⟨rfl, rfl, hempty.2.symm⟩

/-! ## Exceptions -/

theorem uploadFile_strict (kind : ArtifactKind) (file : File) : (uploadFile l kind file).Strict := by
  refine (Script.Strict.op _).bind (fun unique => ?_)
  split
  · exact trivial
  · exact (Script.Strict.op _).bind (fun _ => trivial)

theorem call_strict (m : Method) (p : Payload) : (call l m p).Strict := Script.Strict.op _

theorem report_strict (entries : List Artifact) : (report l entries).Strict :=
  Script.Strict.each (fun _ => call_strict _ _) _

theorem progress_strict (uploaded : List Str) : (progress l uploaded).Strict := by
  refine (Script.Strict.op _).bind fun batch => (Script.Strict.op _).bind fun listing =>
    (Script.Strict.each (uploadFile_strict _) _).bind fun entries => Script.Strict.bind ?_ fun _ => trivial
  unfold reportProgress
  split
  · exact (Script.Strict.op _).bind fun _ => report_strict entries
  · exact trivial

theorem collect_strict (left : Left) : (collect l left).Strict :=
  (uploadFile_strict _ _).bind fun _ => (Script.Strict.each (uploadFile_strict _) _).bind fun _ =>
    report_strict _

/-! ## Rounds of `progress` -/

/-- Rounds that have all returned: the names that were uploaded before and after them. -/
structure Gathered (uploaded : List Str) (τ : Trace l) (uploaded' : List Str) : Prop where
  kinds : ∀ p ∈ puts τ, p.kind = .checkpoint
  entries : reported τ = (puts τ).map Put.entry
  names : uploaded' = uploaded ++ (puts τ).map (fun p => p.file.name)
  nodup : uploaded.Nodup → (∀ listing ∈ listings τ, (listing.map File.name).Nodup) → uploaded'.Nodup
  covers : ∀ listing ∈ listings τ, ∀ f ∈ listing, f.name ∈ uploaded'
  found : ∀ p ∈ puts τ, ∃ listing ∈ listings τ, p.file ∈ listing
  returned : ∀ e ∈ τ, e.2.isSome = true

theorem Gathered.trans {u₁ u₂ u₃ : List Str} {τ₁ τ₂ : Trace l} (h₁ : Gathered u₁ τ₁ u₂)
    (h₂ : Gathered u₂ τ₂ u₃) : Gathered u₁ (τ₁ ++ τ₂) u₃ where
  kinds p hp := by
    rw [puts_append] at hp
    exact (List.mem_append.mp hp).elim (h₁.kinds p) (h₂.kinds p)
  entries := by rw [reported_append, puts_append, h₁.entries, h₂.entries, List.map_append]
  names := by rw [h₂.names, h₁.names, puts_append, List.map_append, List.append_assoc]
  nodup hnodup hall := by
    rw [listings_append] at hall
    exact h₂.nodup (h₁.nodup hnodup fun g hg => hall g (List.mem_append_left _ hg))
      fun g hg => hall g (List.mem_append_right _ hg)
  covers g hg f hf := by
    rw [listings_append] at hg
    rcases List.mem_append.mp hg with hg | hg
    · rw [h₂.names]
      exact List.mem_append_left _ (h₁.covers g hg f hf)
    · exact h₂.covers g hg f hf
  found p hp := by
    rw [puts_append] at hp
    rw [listings_append]
    rcases List.mem_append.mp hp with hp | hp
    · obtain ⟨g, hg, hfile⟩ := h₁.found p hp
      exact ⟨g, List.mem_append_left _ hg, hfile⟩
    · obtain ⟨g, hg, hfile⟩ := h₂.found p hp
      exact ⟨g, List.mem_append_right _ hg, hfile⟩
  returned := List.forall_mem_append.mpr ⟨h₁.returned, h₂.returned⟩

/-- A call of `progress` that returns asks for the lines and the listing, uploads and reports. -/
theorem progress_returned {uploaded uploaded' : List Str}
    (h : Runs (progress l uploaded) τ (.returned uploaded')) :
    ∃ (batch : List Str) (listing : List File) (τ₁ τ₂ : Trace l) (entries : List Artifact) (us : List Unit),
      τ = [⟨Ask.lines, some batch⟩] ++ ([⟨Ask.glob, some listing⟩] ++ (τ₁ ++ τ₂)) ∧
      Runs (Script.each (uploadFile l .checkpoint) (listing.filter (fun f => f.name ∉ uploaded))) τ₁
        (.returned entries) ∧
      Runs (reportProgress l batch entries) τ₂ (.returned us) ∧
      uploaded' = uploaded ++ (listing.filter (fun f => f.name ∉ uploaded)).map File.name := by
  obtain ⟨τ₁, τ₂, batch, rfl, hlines, h₂⟩ := returned_bind h
  obtain rfl := returned_op (r := Ask.lines) hlines
  obtain ⟨τ₃, τ₄, listing, rfl, hglob, h₄⟩ := returned_bind h₂
  obtain rfl := returned_op (r := Ask.glob) hglob
  obtain ⟨τ₅, τ₆, entries, rfl, hupload, h₆⟩ := returned_bind h₄
  obtain ⟨τ₇, τ₈, us, rfl, hreport, hdone⟩ := returned_bind h₆
  cases hdone
  exact ⟨batch, listing, τ₅, τ₇, entries, us, by rw [List.append_nil], hupload, hreport, rfl⟩

/-- It has looked once, and has uploaded and reported what it found and did not know. -/
theorem progress_looks {uploaded uploaded' : List Str}
    (h : Runs (progress l uploaded) τ (.returned uploaded')) :
    ∃ listing, listings τ = [listing] ∧
      (puts τ).map (fun p => (p.kind, p.file)) =
        (listing.filter (fun f => f.name ∉ uploaded)).map (Prod.mk .checkpoint) ∧
      reported τ = (puts τ).map Put.entry ∧
      uploaded' = uploaded ++ (listing.filter (fun f => f.name ∉ uploaded)).map File.name := by
  obtain ⟨batch, listing, τ₁, τ₂, entries, us, hwhole, hupload, hreport, hnames⟩ := progress_returned h
  obtain ⟨hfiles, hentries, hlist₁, hreported₁⟩ := uploadAll_spec hupload
  obtain ⟨hputs₂, hlist₂, hreported₂⟩ := reportProgress_spec hreport
  have hputs : puts τ = puts τ₁ := by
    rw [hwhole, puts_append, puts_append, puts_append, hputs₂]
    exact List.append_nil _
  refine ⟨listing, ?_, by rw [hputs, hfiles], ?_, hnames⟩
  · rw [hwhole, listings_append, listings_append, listings_append, hlist₁, hlist₂]
    rfl
  · rw [hputs, hentries, hwhole, reported_append, reported_append, reported_append, hreported₁, hreported₂]
    rfl

theorem progress_spec {uploaded uploaded' : List Str}
    (h : Runs (progress l uploaded) τ (.returned uploaded')) :
    Gathered uploaded τ uploaded' ∧ ∃ listing, listings τ = [listing] ∧
      (puts τ).map Put.file = listing.filter (fun f => f.name ∉ uploaded) := by
  obtain ⟨listing, hlist, hfiles, hreported, rfl⟩ := progress_looks h
  have hfile : (puts τ).map Put.file = listing.filter (fun f => f.name ∉ uploaded) := by
    have hsnd := congrArg (List.map Prod.snd) hfiles
    simpa [List.map_map, Function.comp_def] using hsnd
  have hmem : ∀ p ∈ puts τ, p.kind = .checkpoint ∧ p.file ∈ listing := by
    intro p hp
    have hpair : (p.kind, p.file) ∈ (puts τ).map (fun p => (p.kind, p.file)) := List.mem_map_of_mem hp
    rw [hfiles] at hpair
    obtain ⟨f, hf, heq⟩ := List.mem_map.mp hpair
    obtain ⟨hkind, hfile⟩ := Prod.mk.inj heq
    exact ⟨hkind.symm, hfile ▸ List.mem_of_mem_filter hf⟩
  refine ⟨⟨fun p hp => (hmem p hp).1, hreported, ?_, ?_, ?_, fun p hp => ?_,
    (progress_strict uploaded).answered h⟩, listing, hlist, hfile⟩
  · rw [← hfile, List.map_map]
    rfl
  · intro hnodup hall
    refine List.nodup_append.mpr ⟨hnodup, ?_, ?_⟩
    · exact (hall listing (by rw [hlist]; exact List.mem_cons_self)).sublist (List.filter_sublist.map _)
    · rintro name hname name' hname' rfl
      obtain ⟨f, hf, rfl⟩ := List.mem_map.mp hname'
      simpa [hname] using (List.mem_filter.mp hf).2
  · intro g hg f hf
    rw [hlist, List.mem_singleton] at hg
    subst hg
    by_cases hold : f.name ∈ uploaded
    · exact List.mem_append_left _ hold
    · exact List.mem_append_right _ (List.mem_map_of_mem (List.mem_filter.mpr ⟨hf, by simpa using hold⟩))
  · exact ⟨listing, by rw [hlist]; exact List.mem_cons_self, (hmem p hp).2⟩

/-! ## What a run can ask for -/

def Ask.isCall : Ask l → Bool
  | .call _ _ => true
  | _ => false

/-- The property holds of the calls of `progress`, and of what is not a call. -/
structure Allows (P : Ask l → Prop) : Prop where
  plain : ∀ r, r.isCall = false → P r
  logs : ∀ batch, P (.call .reportProgress (.logs batch))
  artifacts : ∀ b, b.length ≤ 100 → P (.call .reportProgress (.artifacts b))

section Allowed

variable {P : Ask l → Prop}

theorem uploadFile_asks (h : Allows P) (kind : ArtifactKind) (file : File) :
    (uploadFile l kind file).Asks P := by
  refine (Script.Asks.op (h.plain _ rfl)).bind (fun unique => ?_)
  split
  · exact trivial
  · exact (Script.Asks.op (h.plain _ rfl)).bind (fun _ => trivial)

theorem report_asks (h : Allows P) (entries : List Artifact) : (report l entries).Asks P :=
  Script.Asks.each fun b hb => Script.Asks.op (h.artifacts b ((batches_spec entries).2 b hb))

theorem progress_asks (h : Allows P) (uploaded : List Str) : (progress l uploaded).Asks P := by
  refine (Script.Asks.op (h.plain _ rfl)).bind fun batch =>
    (Script.Asks.op (h.plain _ rfl)).bind fun listing =>
      (Script.Asks.each fun _ _ => uploadFile_asks h _ _).bind fun entries =>
        Script.Asks.bind ?_ fun _ => trivial
  unfold reportProgress
  split
  · exact (Script.Asks.op (h.logs batch)).bind fun _ => report_asks h entries
  · exact trivial

theorem collect_asks (h : Allows P) (left : Left) : (collect l left).Asks P :=
  (uploadFile_asks h _ _).bind fun _ => (Script.Asks.each fun _ _ => uploadFile_asks h _ _).bind fun _ =>
    report_asks h _

end Allowed

/-! ## Runs that complete -/

/-- `CompleteAttempt` has been called. -/
def Completes (τ : Trace l) : Prop := ∃ p x, ⟨.call .completeAttempt p, x⟩ ∈ τ

/-- Not `CompleteAttempt`. -/
def Ask.Quiet : Ask l → Prop
  | .call m _ => m ≠ .completeAttempt
  | _ => True

/-- Nothing is listed, uploaded or reported. -/
def Ask.Silent : Ask l → Prop
  | .call m _ => m ≠ .reportProgress
  | .put _ | .glob => False
  | _ => True

theorem Allows.quiet : Allows (Ask.Quiet (l := l)) where
  plain r hr := by
    cases r with
    | call m p => cases hr
    | _ => trivial
  logs _ := by simp [Ask.Quiet]
  artifacts _ _ := by simp [Ask.Quiet]

theorem not_completes (h : ∀ e ∈ τ, e.1.Quiet) : ¬ Completes τ := by
  rintro ⟨p, x, hmem⟩
  exact h _ hmem rfl

theorem silent_trace (h : ∀ e ∈ τ, e.1.Silent) : puts τ = [] ∧ listings τ = [] ∧ reported τ = [] := by
  refine ⟨List.filterMap_eq_nil_iff.mpr fun e he => ?_, List.filterMap_eq_nil_iff.mpr fun e he => ?_,
    List.flatMap_eq_nil_iff.mpr fun e he => ?_⟩
  · obtain ⟨r, x⟩ := e
    have hsilent := h _ he
    cases r with
    | put p => exact absurd hsilent id
    | _ => rfl
  · obtain ⟨r, x⟩ := e
    have hsilent := h _ he
    cases r with
    | glob => exact absurd hsilent id
    | _ => rfl
  · obtain ⟨r, x⟩ := e
    have hsilent := h _ he
    cases r with
    | call m p =>
        cases m with
        | reportProgress => exact absurd rfl hsilent
        | _ => rfl
    | _ => rfl

/-- What makes no such call returns before it is made. -/
theorem completes_bind {α β : Type} {p : Program l α} {f : α → Program l β} {o : Script.Outcome β}
    (h : Runs (p >>= f) τ o) (hc : Completes τ) (hp : p.Asks Ask.Quiet) :
    ∃ τ₁ τ₂ a, τ = τ₁ ++ τ₂ ∧ Runs p τ₁ (.returned a) ∧ Runs (f a) τ₂ o ∧ Completes τ₂ := by
  rcases runs_bind h with ⟨τ₁, τ₂, a, rfl, h₁, h₂⟩ | ⟨hr, -⟩ | ⟨hr, -⟩
  · refine ⟨τ₁, τ₂, a, rfl, h₁, h₂, ?_⟩
    obtain ⟨p, x, hmem⟩ := hc
    rcases List.mem_append.mp hmem with hmem | hmem
    · exact absurd ⟨p, x, hmem⟩ (not_completes (hp.run h₁))
    · exact ⟨p, x, hmem⟩
  · exact absurd hc (not_completes (hp.run hr))
  · exact absurd hc (not_completes (hp.run hr))

theorem call_quiet {m : Method} (hm : m ≠ .completeAttempt) (p : Payload) :
    (call l m p).Asks Ask.Quiet := Script.Asks.op hm

theorem progress_quiet (uploaded : List Str) : (progress l uploaded).Asks Ask.Quiet :=
  progress_asks .quiet uploaded

theorem collect_quiet (left : Left) : (collect l left).Asks Ask.Quiet := collect_asks .quiet left

theorem call_silent {m : Method} (hm : m ≠ .reportProgress) (p : Payload) :
    (call l m p).Asks Ask.Silent := Script.Asks.op hm

theorem result_silent (left : Left) : (result l left).Asks Ask.Silent := by
  unfold result
  split
  · exact call_silent (by decide) _
  · exact call_silent (by decide) _

theorem failing_silent : (failing l).Asks Ask.Silent := by
  refine (Script.Asks.op trivial).bind fun text => (Script.Asks.op trivial).bind fun going => ?_
  split
  · exact (call_silent (by decide) _).handle trivial
  · exact trivial

theorem failing_quiet : (failing l).Asks Ask.Quiet := by
  refine (Script.Asks.op trivial).bind fun text => (Script.Asks.op trivial).bind fun going => ?_
  split
  · exact (call_quiet (by decide) _).handle trivial
  · exact trivial

/-- An `alive()` that holds, where `CompleteAttempt` is called after it. -/
theorem completes_alive {p : Program l Unit} {o : Script.Outcome Unit}
    (h : Runs (alive l >>= fun going => if going then p else pure ()) τ o) (hc : Completes τ) :
    ∃ τ', τ = ⟨.alive, some true⟩ :: τ' ∧ Runs p τ' o ∧ Completes τ' := by
  obtain ⟨τ₁, τ₂, going, rfl, halive, hrest, hcompletes⟩ := completes_bind h hc (Script.Asks.op trivial)
  obtain rfl := returned_op (r := Ask.alive) halive
  cases going with
  | true => exact ⟨τ₂, rfl, hrest, hcompletes⟩
  | false =>
      have hquiet : (pure () : Program l Unit).Asks Ask.Quiet := trivial
      exact absurd hcompletes (not_completes (hquiet.run hrest))

/-- The log and the outputs, when they are reported. -/
theorem collect_spec {left : Left} {us : List Unit} (h : Runs (collect l left) τ (.returned us)) :
    (puts τ).map (fun p => (p.kind, p.file))
        = (.log, logFile left.log) :: (outputFiles left.outputs).map (fun x => (.output, x.2)) ∧
      listings τ = [] ∧ reported τ = (puts τ).map Put.entry := by
  obtain ⟨τ₁, τ₂, log, rfl, hlog, h₂⟩ := returned_bind h
  obtain ⟨τ₃, τ₄, outputs, rfl, houtputs, hreport⟩ := returned_bind h₂
  obtain ⟨⟨p, hp, hkind, hfile, hentry⟩, hlist₁, hreported₁⟩ := uploadFile_spec hlog
  obtain ⟨hfiles, hentries, hlist₃, hreported₃⟩ := uploadAll_spec houtputs
  obtain ⟨hputs₄, hlist₄, hreported₄⟩ := report_spec hreport
  have hputs : puts (τ₁ ++ (τ₃ ++ τ₄)) = p :: puts τ₃ := by
    rw [puts_append, puts_append, hp, hputs₄, List.append_nil]
    rfl
  refine ⟨?_, ?_, ?_⟩
  · rw [hputs, List.map_cons, hfiles, hkind, hfile, List.map_map]
    rfl
  · rw [listings_append, listings_append, hlist₁, hlist₃, hlist₄]
    rfl
  · rw [reported_append, reported_append, hreported₁, hreported₃, hreported₄, hputs, List.map_cons,
      hentry, hentries]
    rfl

/-- What follows the rounds: the log and the outputs are uploaded and reported. -/
structure Closed (left : Left) (τ : Trace l) : Prop where
  puts : (puts τ).map (fun p => (p.kind, p.file))
    = (.log, logFile left.log) :: (outputFiles left.outputs).map (fun x => (.output, x.2))
  listings : listings τ = []
  entries : reported τ = (Execute.puts τ).map Put.entry
  returned : ∀ p x, ⟨.call .reportProgress p, x⟩ ∈ τ → x.isSome = true

theorem Gathered.alive (uploaded : List Str) : Gathered uploaded ([⟨.alive, some true⟩] : Trace l) uploaded where
  kinds := List.forall_mem_nil _
  entries := rfl
  names := (List.append_nil _).symm
  nodup := fun h _ => h
  covers := List.forall_mem_nil _
  found := List.forall_mem_nil _
  returned := List.forall_mem_singleton.mpr rfl

/-- A run that gets to `CompleteAttempt` has gone through the last call of `progress`. -/
theorem finish_completes {left : Left} {uploaded : List Str} {o : Script.Outcome Unit}
    (h : Runs (finish l left uploaded) τ o) (hc : Completes τ) :
    ∃ τ₁ τ₂ uploaded', τ = τ₁ ++ τ₂ ∧ Gathered uploaded τ₁ uploaded' ∧ listings τ₁ ≠ [] ∧ Closed left τ₂ := by
  obtain ⟨τ', rfl, h₁, hc₁⟩ := completes_alive h hc
  obtain ⟨τ₂, τ'', uploaded', rfl, hprogress, h₂, hc₂⟩ := completes_bind h₁ hc₁ (progress_quiet uploaded)
  obtain ⟨τ₃, τ₄, us, rfl, hcollect, h₃, -⟩ := completes_bind h₂ hc₂ (collect_quiet left)
  obtain ⟨hgathered, listing, hlisting, -⟩ := progress_spec hprogress
  have hsilent := (result_silent left).run h₃
  obtain ⟨hputs₄, hlist₄, hreported₄⟩ := silent_trace hsilent
  obtain ⟨hputs, hlist, hreported⟩ := collect_spec hcollect
  refine ⟨⟨.alive, some true⟩ :: τ₂, τ₃ ++ τ₄, uploaded', rfl, (Gathered.alive uploaded).trans hgathered, ?_,
    ?_, ?_, ?_, fun p x hmem => ?_⟩
  · rw [← List.singleton_append, listings_append, hlisting]
    exact List.append_ne_nil_of_right_ne_nil _ (List.cons_ne_nil _ _)
  · rw [puts_append, hputs₄, List.append_nil, hputs]
  · rw [listings_append, hlist, hlist₄]
    rfl
  · rw [reported_append, puts_append, hreported₄, hputs₄, List.append_nil, List.append_nil, hreported]
  · rcases List.mem_append.mp hmem with hmem | hmem
    · exact (collect_strict left).answered hcollect _ hmem
    · exact absurd rfl (hsilent _ hmem)

/-- The rounds are gone through one after the other. -/
theorem running_completes {left : Left} {rounds : Nat} {uploaded : List Str} {o : Script.Outcome Unit}
    (h : Runs (running l left rounds uploaded) τ o) (hc : Completes τ) :
    ∃ τ₁ τ₂ uploaded', τ = τ₁ ++ τ₂ ∧ Gathered uploaded τ₁ uploaded' ∧ listings τ₁ ≠ [] ∧ Closed left τ₂ := by
  induction rounds generalizing τ uploaded with
  | zero => exact finish_completes h hc
  | succ rounds ih =>
      obtain ⟨τ', rfl, h₁, hc₁⟩ := completes_alive h hc
      obtain ⟨τ₂, τ₃, uploaded', rfl, hprogress, h₂, hc₂⟩ := completes_bind h₁ hc₁ (progress_quiet uploaded)
      obtain ⟨τ₄, τ₅, uploaded'', rfl, hgathered, hlist, hclosed⟩ := ih h₂ hc₂
      refine ⟨⟨.alive, some true⟩ :: (τ₂ ++ τ₄), τ₅, uploaded'', by simp,
        (Gathered.alive uploaded).trans ((progress_spec hprogress).1.trans hgathered), ?_, hclosed⟩
      rw [← List.singleton_append, listings_append, listings_append]
      exact List.append_ne_nil_of_right_ne_nil _ (List.append_ne_nil_of_right_ne_nil _ hlist)

/-- A run in which the checkpoints `files`, the log and the outputs are uploaded and
reported. -/
structure Finished (left : Left) (files : List File) (τ : Trace l) : Prop where
  puts : (puts τ).map (fun p => (p.kind, p.file)) = files.map (Prod.mk .checkpoint) ++
    (.log, logFile left.log) :: (outputFiles left.outputs).map (fun x => (.output, x.2))
  entries : reported τ = (Execute.puts τ).map Put.entry
  nodup : (∀ listing ∈ listings τ, (listing.map File.name).Nodup) → (files.map File.name).Nodup
  covers : ∀ listing ∈ listings τ, ∀ f ∈ listing, f.name ∈ files.map File.name
  found : ∀ f ∈ files, ∃ listing ∈ listings τ, f ∈ listing
  listed : listings τ ≠ []
  returned : ∀ p x, ⟨.call .reportProgress p, x⟩ ∈ τ → x.isSome = true

/-- Silent parts before and after change nothing. -/
theorem Finished.frame {left : Left} {files : List File} {τ₀ τ₁ : Trace l} (h : Finished left files τ)
    (h₀ : ∀ e ∈ τ₀, e.1.Silent) (h₁ : ∀ e ∈ τ₁, e.1.Silent) : Finished left files (τ₀ ++ τ ++ τ₁) := by
  obtain ⟨hputs₀, hlist₀, hreported₀⟩ := silent_trace h₀
  obtain ⟨hputs₁, hlist₁, hreported₁⟩ := silent_trace h₁
  have hputs : Execute.puts (τ₀ ++ τ ++ τ₁) = Execute.puts τ := by simp [hputs₀, hputs₁]
  have hlist : listings (τ₀ ++ τ ++ τ₁) = listings τ := by simp [hlist₀, hlist₁]
  have hreported : reported (τ₀ ++ τ ++ τ₁) = reported τ := by simp [hreported₀, hreported₁]
  refine ⟨by rw [hputs]; exact h.puts, by rw [hreported, hputs]; exact h.entries,
    by rw [hlist]; exact h.nodup, by rw [hlist]; exact h.covers, by rw [hlist]; exact h.found,
    by rw [hlist]; exact h.listed, fun p x hmem => ?_⟩
  rcases List.mem_append.mp hmem with hmem | hmem
  · rcases List.mem_append.mp hmem with hmem | hmem
    · exact absurd rfl (h₀ _ hmem)
    · exact h.returned p x hmem
  · exact absurd rfl (h₁ _ hmem)

theorem finished_of_parts {left : Left} {τ₁ τ₂ : Trace l} {uploaded : List Str} (h : Gathered [] τ₁ uploaded)
    (hlist : listings τ₁ ≠ []) (hclosed : Closed left τ₂) :
    Finished left ((puts τ₁).map Put.file) (τ₁ ++ τ₂) := by
  have hnames : uploaded = ((puts τ₁).map Put.file).map File.name := by
    rw [h.names, List.nil_append, List.map_map]
    rfl
  have hlistings : listings (τ₁ ++ τ₂) = listings τ₁ := by
    rw [listings_append, hclosed.listings, List.append_nil]
  refine ⟨?_, ?_, ?_, ?_, ?_, by rwa [hlistings], fun p x hmem => ?_⟩
  · rw [puts_append, List.map_append, hclosed.puts, List.map_map]
    congr 1
    exact List.map_congr_left fun p hp => by rw [Function.comp_apply, h.kinds p hp]
  · rw [reported_append, puts_append, h.entries, hclosed.entries, List.map_append]
  · rw [hlistings, ← hnames]
    exact h.nodup List.nodup_nil
  · rw [hlistings, ← hnames]
    exact h.covers
  · rw [hlistings]
    intro f hf
    obtain ⟨p, hp, rfl⟩ := List.mem_map.mp hf
    exact h.found p hp
  · rcases List.mem_append.mp hmem with hmem | hmem
    · exact h.returned _ hmem
    · exact hclosed.returned p x hmem

/-- Where `execute` calls `CompleteAttempt`, everything is uploaded and reported. -/
theorem execute_completes {left : Left} {rounds : Nat} {o : Script.Outcome Unit}
    (h : Runs (execute l left rounds) τ o) (hc : Completes τ) : ∃ files, Finished left files τ := by
  -- The `except` branch neither completes nor reports.
  have htry : ∃ τ₁ τ₂ o', τ = τ₁ ++ τ₂ ∧ Runs (attempt l left rounds) τ₁ o' ∧ Completes τ₁ ∧
      ∀ e ∈ τ₂, e.1.Silent := by
    rcases Script.runs_handle h with h | ⟨τ₁, τ₂, rfl, h₁, h₂⟩
    · exact ⟨τ, [], o, (List.append_nil τ).symm, h, hc, List.forall_mem_nil _⟩
    · obtain ⟨p, x, hmem⟩ := hc
      rcases List.mem_append.mp hmem with hmem | hmem
      · exact ⟨τ₁, τ₂, .raised, rfl, h₁, ⟨p, x, hmem⟩, failing_silent.run h₂⟩
      · exact absurd ⟨p, x, hmem⟩ (not_completes (failing_quiet.run h₂))
  obtain ⟨τ₁, τ₂, o', rfl, hattempt, hc₁, hsilent⟩ := htry
  obtain ⟨τ₃, rfl, hlaunch, hc₃⟩ := completes_alive hattempt hc₁
  obtain ⟨τ₄, τ₅, _, rfl, hstart, h₅, hc₅⟩ := completes_bind hlaunch hc₃ (call_quiet (by decide) _)
  obtain ⟨τ₆, τ₇, _, rfl, hprepare, h₇, hc₇⟩ := completes_bind h₅ hc₅ (Script.Asks.op trivial)
  obtain ⟨τ₈, rfl, h₈, hc₈⟩ := completes_alive h₇ hc₇
  obtain ⟨τ₉, τ₁₀, _, rfl, hpopen, hrunning, hc₁₀⟩ := completes_bind h₈ hc₈ (Script.Asks.op trivial)
  obtain ⟨τ₁₁, τ₁₂, uploaded, rfl, hgathered, hlist, hclosed⟩ := running_completes hrunning hc₁₀
  obtain rfl := returned_op (r := Ask.call _ _) hstart
  obtain rfl := returned_op (r := Ask.prepare) hprepare
  obtain rfl := returned_op (r := Ask.popen) hpopen
  have hbefore : ∀ e ∈ ([⟨.alive, some true⟩, ⟨.call .startAttempt .empty, some ()⟩, ⟨.prepare, some ()⟩,
      ⟨.alive, some true⟩, ⟨.popen, some ()⟩] : Trace l), e.1.Silent := by simp [Ask.Silent]
  exact ⟨_, (finished_of_parts hgathered hlist hclosed).frame hbefore hsilent⟩

/-- At most a hundred entries. -/
def Ask.Bounded : Ask l → Prop
  | .call _ p => p.request.artifacts.elems.length ≤ 100
  | _ => True

theorem Allows.bounded : Allows (Ask.Bounded (l := l)) where
  plain r hr := by
    cases r with
    | call m p => cases hr
    | _ => trivial
  logs _ := Nat.zero_le _
  artifacts _ hb := hb

theorem running_bounded (left : Left) (rounds : Nat) (uploaded : List Str) :
    (running l left rounds uploaded).Asks Ask.Bounded := by
  induction rounds generalizing uploaded with
  | zero =>
      refine (Script.Asks.op trivial).bind fun going => ?_
      split
      · refine (progress_asks .bounded uploaded).bind fun _ => (collect_asks .bounded left).bind fun _ => ?_
        unfold result
        split
        · exact Script.Asks.op (Nat.zero_le _)
        · exact Script.Asks.op (Nat.zero_le _)
      · exact trivial
  | succ rounds ih =>
      refine (Script.Asks.op trivial).bind fun going => ?_
      split
      · exact (progress_asks .bounded uploaded).bind fun uploaded' => ih uploaded'
      · exact trivial

theorem execute_bounded (left : Left) (rounds : Nat) : (execute l left rounds).Asks Ask.Bounded := by
  refine Script.Asks.handle ?_ ?_
  · refine (Script.Asks.op trivial).bind fun going => ?_
    split
    · refine Script.Asks.bind (Script.Asks.op (Nat.zero_le _)) fun _ =>
        (Script.Asks.op trivial).bind fun _ => (Script.Asks.op trivial).bind fun going => ?_
      split
      · exact (Script.Asks.op trivial).bind fun _ => running_bounded left rounds []
      · exact trivial
    · exact trivial
  · refine (Script.Asks.op trivial).bind fun text => (Script.Asks.op trivial).bind fun going => ?_
    split
    · exact Script.Asks.handle (Script.Asks.op (Nat.zero_le _)) trivial
    · exact trivial

/-- No report has more than a hundred entries. -/
theorem execute_batches {left : Left} {rounds : Nat} {o : Script.Outcome Unit}
    (h : Runs (execute l left rounds) τ o) {m : Method} {p : Payload} {x : Option Unit}
    (hmem : ⟨.call m p, x⟩ ∈ τ) : p.request.artifacts.elems.length ≤ 100 :=
  (execute_bounded left rounds).run h _ hmem

end Parts

end Execute

end Worker

end Rungrid
