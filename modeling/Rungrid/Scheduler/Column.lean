-- SUMMARY: The `definition` column: a job that is marshalled, stored as `jsonb` and scanned back is the same job.
import Rungrid.Base.Parse
import Rungrid.Scheduler.Decode
import Mathlib.Data.List.Forall2
import Mathlib.Data.List.Perm.Basic
import Mathlib.Data.List.Sort

/-!
# The definition column

`Submit` marshals a job into a `jsonb` column and scans the column back into a job.
The column keeps the document and not its text: it may reorder the members of an
object, and it spaces and escapes the text in its own way. So what is read back is
a reordering of the document, and decoding does not depend on the order as long as
no name occurs twice.
-/

namespace Json

/-! ## Documents up to order -/

/-- The first document is the second with the members of its objects reordered. -/
inductive Reordered : Json → Json → Prop where
  | null : Reordered .null .null
  | bool (b : Bool) : Reordered (.bool b) (.bool b)
  | int (n : Int) : Reordered (.int n) (.int n)
  | str (s : String) : Reordered (.str s) (.str s)
  | arr {xs ys : List Json} : List.Forall₂ Reordered xs ys → Reordered (.arr xs) (.arr ys)
  | obj {fs gs hs : List (String × Json)} : fs.Perm gs → gs.map Prod.fst = hs.map Prod.fst →
      List.Forall₂ Reordered (gs.map Prod.snd) (hs.map Prod.snd) → Reordered (.obj fs) (.obj hs)

mutual
/-- No object of the document has two members of one name. -/
def Distinct : Json → Prop
  | .arr xs => DistinctAll xs
  | .obj fs => (fs.map Prod.fst).Nodup ∧ DistinctFields fs
  | _ => True

def DistinctAll : List Json → Prop
  | [] => True
  | x :: xs => Distinct x ∧ DistinctAll xs

def DistinctFields : List (String × Json) → Prop
  | [] => True
  | (_, v) :: fs => Distinct v ∧ DistinctFields fs
end

theorem Reordered.str_eq {d : Json} {s : String} (h : Reordered d (.str s)) : d = .str s := by
  cases h; rfl

theorem Reordered.int_eq {d : Json} {n : Int} (h : Reordered d (.int n)) : d = .int n := by
  cases h; rfl

theorem Reordered.null_eq {d : Json} (h : Reordered d .null) : d = .null := by
  cases h; rfl

theorem Reordered.strs_eq {d : Json} {ss : List String} (h : Reordered d (.arr (ss.map .str))) :
    d = .arr (ss.map .str) := by
  cases h with
  | arr hxs =>
      rw [List.forall₂_map_right_iff] at hxs
      congr 1
      induction hxs with
      | nil => rfl
      | cons hx _ ih => rw [hx.str_eq, ih, List.map_cons]

/-- The members of a reordered object, each with the member it comes from. -/
theorem Reordered.fields {d : Json} {hs : List (String × Json)} (h : Reordered d (.obj hs)) :
    ∃ fs, d = .obj fs ∧ (fs.map Prod.fst).Perm (hs.map Prod.fst) ∧
      ∀ f ∈ fs, ∃ h ∈ hs, f.1 = h.1 ∧ Reordered f.2 h.2 := by
  cases h with
  | @obj fs gs hs hperm hnames hvalues =>
      refine ⟨fs, rfl, hnames ▸ hperm.map Prod.fst, fun f hf => ?_⟩
      have hg : f ∈ gs := hperm.mem_iff.mp hf
      clear hperm hf
      induction gs generalizing hs with
      | nil => cases hg
      | cons g gs ih =>
          cases hs with
          | nil => cases hnames
          | cons h hs =>
              simp only [List.map_cons, List.cons.injEq, List.forall₂_cons] at hnames hvalues
              rcases List.mem_cons.mp hg with rfl | hg
              · exact ⟨h, List.mem_cons_self, hnames.1, hvalues.1⟩
              · obtain ⟨h', hmem, hh'⟩ := ih hnames.2 hvalues.2 hg
                exact ⟨h', List.mem_cons_of_mem _ hmem, hh'⟩

/-- A reordered object of strings has the same members in some order. -/
theorem Reordered.strings {d : Json} {es : List (String × String)}
    (h : Reordered d (.obj (es.map (fun e => (e.1, .str e.2))))) :
    ∃ es' : List (String × String), d = .obj (es'.map (fun e => (e.1, .str e.2))) ∧ es'.Perm es := by
  cases h with
  | @obj fs gs hs hperm hnames hvalues =>
      have hgs : gs = es.map (fun e => (e.1, .str e.2)) := by
        clear hperm
        induction gs generalizing es with
        | nil =>
            cases es with
            | nil => rfl
            | cons e es => cases hnames
        | cons g gs ih =>
            cases es with
            | nil => cases hnames
            | cons e es =>
                simp only [List.map_cons, List.cons.injEq, List.forall₂_cons] at hnames hvalues
                rw [List.map_cons, ih hnames.2 hvalues.2]
                exact congrArg (· :: _) (Prod.ext hnames.1 hvalues.1.str_eq)
      rw [hgs] at hperm
      obtain ⟨es', hfs, hes'⟩ := (congrFun (congrFun (List.eq_map_comp_perm _) fs) es).mpr hperm
      exact ⟨es', congrArg Json.obj hfs, hes'⟩

end Json

namespace Rungrid

/-! ## Fields in any order -/

/-- Members with different names, each of which sets its own field, set them all in
whatever order they come. `I ks` says that the fields `ks` are set. -/
theorem foldlM_collect {σ α ι : Type} {step : σ → α → Option σ} {key : α → ι}
    {I : List ι → σ → Prop} {fs : List α} {ks : List ι} {s : σ}
    (hstep : ∀ ks s, ∀ f ∈ fs, key f ∉ ks → I ks s → ∃ s', step s f = some s' ∧ I (key f :: ks) s')
    (hnodup : (fs.map key).Nodup) (hks : ∀ f ∈ fs, key f ∉ ks) (h : I ks s) :
    ∃ s', fs.foldlM step s = some s' ∧ I ((fs.map key).reverse ++ ks) s' := by
  induction fs generalizing ks s with
  | nil => exact ⟨s, rfl, h⟩
  | cons f fs ih =>
      obtain ⟨hf, hfs⟩ := List.nodup_cons.mp hnodup
      obtain ⟨s₁, hs₁, h₁⟩ := hstep ks s f List.mem_cons_self (hks f List.mem_cons_self) h
      have hks₁ : ∀ g ∈ fs, key g ∉ key f :: ks := by
        intro g hg hmem
        rcases List.mem_cons.mp hmem with heq | hmem
        · exact hf (heq ▸ List.mem_map_of_mem hg)
        · exact hks g (List.mem_cons_of_mem f hg) hmem
      obtain ⟨s', hs', h'⟩ := ih (fun ks s g hg => hstep ks s g (List.mem_cons_of_mem f hg)) hfs hks₁ h₁
      refine ⟨s', ?_, ?_⟩
      · rw [List.foldlM_cons, hs₁]
        exact hs'
      · simpa using h'

namespace Decode

/-! ## Maps -/

theorem insertEntry_perm {k v : String} {es : List (String × String)} (h : ∀ e ∈ es, e.1 ≠ k) :
    (GoMap.insertEntry k v es).Perm ((k, v) :: es) := by
  induction es with
  | nil => exact .refl _
  | cons e es ih =>
      unfold GoMap.insertEntry
      split
      · exact .refl _
      · rw [if_neg (h e List.mem_cons_self).symm]
        exact ((ih (fun e he => h e (List.mem_cons_of_mem _ he))).cons e).trans (.swap ..)

/-- Entries with different keys are all in the map they are put into. -/
theorem setEntries {es : List (String × String)} {m : GoMap} (hnodup : (es.map Prod.fst).Nodup)
    (hm : ∀ e ∈ es, ∀ e' ∈ m.entries, e'.1 ≠ e.1) :
    ∃ m', (es.map (fun e => (e.1, Json.str e.2))).foldlM setEntry m = some m' ∧
      m'.entries.Perm (es ++ m.entries) := by
  induction es generalizing m with
  | nil => exact ⟨m, rfl, .refl _⟩
  | cons e es ih =>
      obtain ⟨he, hes⟩ := List.nodup_cons.mp hnodup
      have hperm := insertEntry_perm (v := e.2) (hm e List.mem_cons_self)
      have hm' : ∀ f ∈ es, ∀ e' ∈ (m.insert e.1 e.2).entries, e'.1 ≠ f.1 := by
        intro f hf e' he' heq
        rcases List.mem_cons.mp (hperm.mem_iff.mp he') with rfl | he'
        · exact he (heq ▸ List.mem_map_of_mem hf)
        · exact hm f (List.mem_cons_of_mem e hf) e' he' heq
      obtain ⟨m', hfold, hentries⟩ := ih hes hm'
      refine ⟨m', ?_, ?_⟩
      · rw [List.map_cons, List.foldlM_cons]
        exact hfold
      · refine hentries.trans ?_
        refine ((List.perm_append_left_iff es).mpr hperm).trans ?_
        exact List.perm_middle

theorem keys_nodup (m : GoMap) : (m.entries.map Prod.fst).Nodup := by
  refine List.Pairwise.map _ ?_ m.sorted
  exact fun a b h heq => String.lt_irrefl _ (heq ▸ h)

/-- An environment is read back whatever the order of its members. -/
theorem decodeMap_reordered {env : Option GoMap} {d : Json} (h : d.Reordered (GoMap.toJson env)) :
    decodeMap none d = some env := by
  cases env with
  | none =>
      rw [h.null_eq]
      rfl
  | some m =>
      obtain ⟨es, rfl, hperm⟩ := Json.Reordered.strings h
      have hnodup : (es.map Prod.fst).Nodup := (hperm.map Prod.fst).nodup_iff.mpr (keys_nodup m)
      have hempty : ∀ e ∈ es, ∀ e' ∈ GoMap.empty.entries, e'.1 ≠ e.1 :=
        fun _ _ _ he' => absurd he' List.not_mem_nil
      obtain ⟨m', hfold, hentries⟩ := setEntries hnodup hempty
      have hentries' : m'.entries.Perm es := by simpa [GoMap.empty] using hentries
      have heq : m'.entries = m.entries :=
        List.Perm.eq_of_pairwise
          (fun a b _ _ hab hba => absurd (String.lt_trans hab hba) (String.lt_irrefl _))
          m'.sorted m.sorted (hentries'.trans hperm)
      have hm : m' = m := by
        cases m'
        cases m
        exact (GoMap.mk.injEq ..).mpr heq
      simp only [decodeMap, Option.getD_none, hfold, Option.map_some, hm]

/-! ## Resources and commands -/

/-- A number of 64 bits. -/
def Int8 (n : Int) : Prop := -(2 ^ 63) ≤ n ∧ n < 2 ^ 63

theorem decodeInt_of_int8 {n : Int} (h : Int8 n) (old : Int) : decodeInt old (.int n) = some n :=
  if_pos h

/-- The fields of `r` that are set are those of `g`. -/
structure ResourcesSet (g : Resources) (ks : List String) (r : Resources) : Prop where
  cpu : "cpu" ∈ ks → r.cpu = g.cpu
  memoryMB : "memory_mb" ∈ ks → r.memoryMB = g.memoryMB
  gpu : "gpu" ∈ ks → r.gpu = g.gpu

theorem decodeResources_reordered {g : Resources} {d : Json} (h : d.Reordered g.toJson)
    (hcpu : Int8 g.cpu) (hmemory : Int8 g.memoryMB) (hgpu : Int8 g.gpu) (old : Resources) :
    decodeResources old d = some g := by
  obtain ⟨fs, rfl, hnames, hfs⟩ := Json.Reordered.fields h
  have hnodup : (fs.map Prod.fst).Nodup := hnames.nodup_iff.mpr (by simp)
  have hstep : ∀ ks r, ∀ f ∈ fs, f.1 ∉ ks → ResourcesSet g ks r →
      ∃ r', setResource r f = some r' ∧ ResourcesSet g (f.1 :: ks) r' := by
    rintro ks r ⟨name, v⟩ hf - hr
    obtain ⟨⟨name, w⟩, hmem, rfl, hv⟩ := hfs _ hf
    simp only [List.mem_cons, Prod.mk.injEq, List.not_mem_nil, or_false] at hmem
    rcases hmem with ⟨rfl, rfl⟩ | ⟨rfl, rfl⟩ | ⟨rfl, rfl⟩
    · obtain rfl : v = .int g.cpu := hv.int_eq
      have hfold : foldName "cpu" = "cpu" := by decide
      refine ⟨{ r with cpu := g.cpu }, ?_, ?_⟩
      · simp only [setResource, hfold, ↓reduceIte, decodeInt_of_int8 hcpu, Option.map_some]
      · constructor <;> simp +contextual [hr.memoryMB, hr.gpu]
    · obtain rfl : v = .int g.memoryMB := hv.int_eq
      have hfold : foldName "memory_mb" = "memory_mb" := by decide
      refine ⟨{ r with memoryMB := g.memoryMB }, ?_, ?_⟩
      · simp only [setResource, hfold, ↓reduceIte, String.reduceEq, decodeInt_of_int8 hmemory,
          Option.map_some]
      · constructor <;> simp +contextual [hr.cpu, hr.gpu]
    · obtain rfl : v = .int g.gpu := hv.int_eq
      have hfold : foldName "gpu" = "gpu" := by decide
      refine ⟨{ r with gpu := g.gpu }, ?_, ?_⟩
      · simp only [setResource, hfold, ↓reduceIte, String.reduceEq, decodeInt_of_int8 hgpu,
          Option.map_some]
      · constructor <;> simp +contextual [hr.cpu, hr.memoryMB]
  have hold : ResourcesSet g [] old := by constructor <;> simp
  obtain ⟨r, hr, hset⟩ := foldlM_collect hstep hnodup (fun _ _ => List.not_mem_nil) hold
  have hall : ∀ name ∈ ["cpu", "memory_mb", "gpu"],
      name ∈ (fs.map Prod.fst).reverse ++ [] := by
    intro name hname
    simpa using hnames.mem_iff.mpr hname
  have hrg : r = g := by
    cases r
    cases g
    have h1 := hset.cpu (hall _ (by simp))
    have h2 := hset.memoryMB (hall _ (by simp))
    have h3 := hset.gpu (hall _ (by simp))
    simp_all
  simp only [decodeResources, hr, hrg]

theorem decodeElements_strs (backing ss : List String) :
    decodeElements decodeString "" backing (ss.map .str) = some ss := by
  induction ss generalizing backing with
  | nil => rfl
  | cons s ss ih => simp [decodeElements, decodeString, ih]

theorem decodeCommand_reordered {command : GoSlice String} {d : Json}
    (h : d.Reordered (command.toJson .str)) (t : Target) :
    ∃ backing, decodeCommand t d = some ⟨{ t.job with command := command }, backing⟩ := by
  cases command with
  | none =>
      rw [h.null_eq]
      exact ⟨_, rfl⟩
  | some ss =>
      rw [Json.Reordered.strs_eq h]
      cases ss with
      | nil => exact ⟨_, rfl⟩
      | cons s ss =>
          refine ⟨(s :: ss) ++ t.backing.drop (s :: ss).length, ?_⟩
          have hss := decodeElements_strs t.backing (s :: ss)
          simp only [List.map_cons] at hss ⊢
          simp only [decodeCommand, hss, Option.bind_eq_bind, Option.bind_some, Option.pure_def]

/-! ## Jobs -/

/-- The fields of the target that are set are those of `j`. The environment is nil
until it is set. -/
structure JobSet (j : Job) (ks : List String) (t : Target) : Prop where
  name : "name" ∈ ks → t.job.name = j.name
  command : "command" ∈ ks → t.job.command = j.command
  environment : "environment" ∈ ks → t.job.environment = j.environment
  resources : "resources" ∈ ks → t.job.resources = j.resources
  maxAttempts : "max_attempts" ∈ ks → t.job.maxAttempts = j.maxAttempts
  timeoutSeconds : "timeout_seconds" ∈ ks → t.job.timeoutSeconds = j.timeoutSeconds
  idempotencyKey : "idempotency_key" ∈ ks → t.job.idempotencyKey = j.idempotencyKey
  artifactPrefix : "artifact_prefix" ∈ ks → t.job.artifactPrefix = j.artifactPrefix
  unset : "environment" ∉ ks → t.job.environment = none

/-- The names of the fields. None has a character that folding changes. -/
def fieldNames : List String :=
  ["name", "command", "environment", "resources", "max_attempts", "timeout_seconds",
    "idempotency_key", "artifact_prefix"]

theorem foldName_field : ∀ name ∈ fieldNames, foldName name = name := by decide

/-- The numbers of a valid job have 64 bits. -/
theorem int8_of_valid {j : Job} (h : j.Valid) :
    (Int8 j.resources.cpu ∧ Int8 j.resources.memoryMB ∧ Int8 j.resources.gpu) ∧
      Int8 j.maxAttempts ∧ Int8 j.timeoutSeconds := by
  obtain ⟨⟨hc, hm, hg, hc', hm', hg'⟩, -, -⟩ := h.resources
  obtain ⟨ha, ha', ht, ht'⟩ := h.bounds
  simp only [Int8]
  omega

/-- One member of a stored definition sets its field. -/
theorem setField_reordered {j : Job} (hvalid : j.Valid) {fields : List (String × Json)}
    (hj : j.toJson = .obj fields) {ks : List String} {t : Target} {name : String} {v w : Json}
    (hmem : (name, w) ∈ fields) (hv : v.Reordered w) (hks : name ∉ ks) (ht : JobSet j ks t) :
    ∃ t', setField t (name, v) = some t' ∧ JobSet j (name :: ks) t' := by
  obtain ⟨⟨hcpu, hmemory, hgpu⟩, hattempts, htimeout⟩ := int8_of_valid hvalid
  obtain ⟨hname, hcommand, henv, hres, hmax, hsec, hkey, hprefix, hunset⟩ := ht
  simp only [Job.toJson, Json.obj.injEq] at hj
  subst hj
  have hfold : foldName name = name :=
    foldName_field name (List.mem_map_of_mem (f := Prod.fst) hmem)
  simp only [List.mem_cons, Prod.mk.injEq, List.not_mem_nil, or_false] at hmem
  rcases hmem with ⟨rfl, rfl⟩ | ⟨rfl, rfl⟩ | ⟨rfl, rfl⟩ | ⟨rfl, rfl⟩ | ⟨rfl, rfl⟩ | ⟨rfl, rfl⟩ |
    ⟨rfl, rfl⟩ | ⟨rfl, rfl⟩
  · obtain rfl : v = .str j.name := hv.str_eq
    refine ⟨{ t with job := { t.job with name := j.name } }, ?_, ?_⟩
    · simp only [setField, hfold, ↓reduceIte, decodeString, Option.map_some]
    · constructor <;> simp +contextual [*]
  · obtain ⟨backing, hdecode⟩ := decodeCommand_reordered hv t
    refine ⟨⟨{ t.job with command := j.command }, backing⟩, ?_, ?_⟩
    · simp only [setField, hfold, ↓reduceIte, String.reduceEq, hdecode]
    · constructor <;> simp +contextual [*]
  · refine ⟨{ t with job := { t.job with environment := j.environment } }, ?_, ?_⟩
    · simp only [setField, hfold, ↓reduceIte, String.reduceEq, hunset hks,
        decodeMap_reordered hv, Option.map_some]
    · constructor <;> simp +contextual [*]
  · refine ⟨{ t with job := { t.job with resources := j.resources } }, ?_, ?_⟩
    · simp only [setField, hfold, ↓reduceIte, String.reduceEq,
        decodeResources_reordered hv hcpu hmemory hgpu, Option.map_some]
    · constructor <;> simp +contextual [*]
  · obtain rfl : v = .int j.maxAttempts := hv.int_eq
    refine ⟨{ t with job := { t.job with maxAttempts := j.maxAttempts } }, ?_, ?_⟩
    · simp only [setField, hfold, ↓reduceIte, String.reduceEq,
        decodeInt_of_int8 hattempts, Option.map_some]
    · constructor <;> simp +contextual [*]
  · obtain rfl : v = .int j.timeoutSeconds := hv.int_eq
    refine ⟨{ t with job := { t.job with timeoutSeconds := j.timeoutSeconds } }, ?_, ?_⟩
    · simp only [setField, hfold, ↓reduceIte, String.reduceEq,
        decodeInt_of_int8 htimeout, Option.map_some]
    · constructor <;> simp +contextual [*]
  · obtain rfl : v = .str j.idempotencyKey := hv.str_eq
    refine ⟨{ t with job := { t.job with idempotencyKey := j.idempotencyKey } }, ?_, ?_⟩
    · simp only [setField, hfold, ↓reduceIte, String.reduceEq, decodeString,
        Option.map_some]
    · constructor <;> simp +contextual [*]
  · obtain rfl : v = .str j.artifactPrefix := hv.str_eq
    refine ⟨{ t with job := { t.job with artifactPrefix := j.artifactPrefix } }, ?_, ?_⟩
    · simp only [setField, hfold, ↓reduceIte, String.reduceEq, decodeString,
        Option.map_some]
    · constructor <;> simp +contextual [*]

/-- A valid job is decoded from its document whatever the order of the members. -/
theorem decode_reordered {j : Job} (hvalid : j.Valid) {d : Json} (h : d.Reordered j.toJson) :
    decode d = some j := by
  obtain ⟨fs, rfl, hnames, hfs⟩ := Json.Reordered.fields h
  have hnodup : (fs.map Prod.fst).Nodup := hnames.nodup_iff.mpr (by simp)
  have hstep : ∀ ks t, ∀ f ∈ fs, f.1 ∉ ks → JobSet j ks t →
      ∃ t', setField t f = some t' ∧ JobSet j (f.1 :: ks) t' := by
    rintro ks t ⟨name, v⟩ hf hks ht
    obtain ⟨⟨name, w⟩, hmem, rfl, hv⟩ := hfs _ hf
    exact setField_reordered hvalid rfl hmem hv hks ht
  have hzero : JobSet j [] zero := by constructor <;> simp [zero]
  obtain ⟨t, hfold, hset⟩ := foldlM_collect hstep hnodup (fun _ _ => List.not_mem_nil) hzero
  have hall : ∀ name ∈ fieldNames, name ∈ (fs.map Prod.fst).reverse ++ [] := by
    intro name hname
    simpa using hnames.mem_iff.mpr hname
  have hjob : t.job = j := by
    have h1 := hset.name (hall _ (by simp [fieldNames]))
    have h2 := hset.command (hall _ (by simp [fieldNames]))
    have h3 := hset.environment (hall _ (by simp [fieldNames]))
    have h4 := hset.resources (hall _ (by simp [fieldNames]))
    have h5 := hset.maxAttempts (hall _ (by simp [fieldNames]))
    have h6 := hset.timeoutSeconds (hall _ (by simp [fieldNames]))
    have h7 := hset.idempotencyKey (hall _ (by simp [fieldNames]))
    have h8 := hset.artifactPrefix (hall _ (by simp [fieldNames]))
    generalize t.job = k at *
    cases k
    cases j
    simp_all
  simp only [decode, hfold, Option.map_some, hjob]

end Decode

/-! ## The column -/

/-- Scan a column: the document of its text, decoded. The stored definitions have no
unknown fields, which `Unmarshal` would ignore. -/
def Decode.scan (t : String) : Option Job := (Json.parse t).bind Decode.decode

/-- The `jsonb` type of PostgreSQL: the text a column gives back for a text that was
stored in it, or none when it rejects the text. It keeps a document whose names do not
repeat, but not the order of its members, its blanks or its escapes. -/
structure Jsonb where
  store : String → Option String
  faithful : ∀ {t t' : String} {d : Json}, Json.parse t = some d → d.Distinct → store t = some t' →
    ∃ d', Json.parse t' = some d' ∧ d'.Reordered d

section Distinct

open Json

theorem distinctAll_strs (ss : List String) : DistinctAll (ss.map .str) := by
  induction ss with
  | nil => trivial
  | cons s ss ih => exact ⟨trivial, ih⟩

theorem distinctFields_strs (es : List (String × String)) :
    DistinctFields (es.map (fun e => (e.1, .str e.2))) := by
  induction es with
  | nil => trivial
  | cons e es ih => exact ⟨trivial, ih⟩

theorem GoMap.toJson_distinct (env : Option GoMap) : (GoMap.toJson env).Distinct := by
  cases env with
  | none => trivial
  | some m =>
      refine ⟨?_, distinctFields_strs m.entries⟩
      rw [List.map_map]
      exact Decode.keys_nodup m

theorem Job.toJson_distinct (j : Job) : j.toJson.Distinct := by
  have hcommand : (j.command.toJson .str).Distinct := by
    cases j.command with
    | none => trivial
    | some ss => exact distinctAll_strs ss
  simp [Job.toJson, Distinct, DistinctFields, hcommand, GoMap.toJson_distinct, Resources.toJson]

end Distinct

/-- A valid job that the column stores is scanned back from it. -/
theorem Jsonb.scan_store (pg : Jsonb) {j : Job} {t : String} (hvalid : j.Valid)
    (hstore : pg.store j.marshal = some t) : Decode.scan t = some j := by
  obtain ⟨d, hparse, hd⟩ := pg.faithful (Json.parse_marshal j.toJson) j.toJson_distinct hstore
  simp only [Decode.scan, hparse, Option.bind_some]
  exact Decode.decode_reordered hvalid hd

end Rungrid

/-! ## A column that sorts

PostgreSQL orders the members of an object by the length of their names and then by
their bytes, and writes a blank after each comma and colon. -/

namespace Json

/-- The order of the members. -/
def shorter (f g : String × Json) : Prop :=
  f.1.utf8ByteSize < g.1.utf8ByteSize ∨ f.1.utf8ByteSize = g.1.utf8ByteSize ∧ f.1 ≤ g.1

instance : DecidableRel shorter := fun _ _ => inferInstanceAs (Decidable (_ ∨ _))

mutual
def canon : Json → Json
  | .null => .null
  | .bool b => .bool b
  | .int n => .int n
  | .str s => .str s
  | .arr xs => .arr (canonAll xs)
  | .obj fs => .obj ((canonFields fs).insertionSort shorter)

def canonAll : List Json → List Json
  | [] => []
  | x :: xs => canon x :: canonAll xs

def canonFields : List (String × Json) → List (String × Json)
  | [] => []
  | (k, v) :: fs => (k, canon v) :: canonFields fs
end

theorem canonFields_names (fs : List (String × Json)) :
    (canonFields fs).map Prod.fst = fs.map Prod.fst := by
  induction fs with
  | nil => rfl
  | cons f fs ih => simp [canonFields, ih]

mutual
theorem canon_reordered : ∀ d : Json, (canon d).Reordered d
  | .null => .null
  | .bool b => .bool b
  | .int n => .int n
  | .str s => .str s
  | .arr xs => .arr (canonAll_reordered xs)
  | .obj fs => .obj (List.perm_insertionSort _ _) (canonFields_names fs) (canonFields_reordered fs)

theorem canonAll_reordered : ∀ xs : List Json, List.Forall₂ Reordered (canonAll xs) xs
  | [] => .nil
  | x :: xs => .cons (canon_reordered x) (canonAll_reordered xs)

theorem canonFields_reordered : ∀ fs : List (String × Json),
    List.Forall₂ Reordered ((canonFields fs).map Prod.snd) (fs.map Prod.snd)
  | [] => .nil
  | (_, v) :: fs => .cons (canon_reordered v) (canonFields_reordered fs)
end

mutual
/-- The document has a string with the character that `jsonb` cannot store. -/
def hasNul : Json → Bool
  | .str s => Text.hasNul s
  | .arr xs => anyNul xs
  | .obj fs => fieldsNul fs
  | _ => false

def anyNul : List Json → Bool
  | [] => false
  | x :: xs => hasNul x || anyNul xs

def fieldsNul : List (String × Json) → Bool
  | [] => false
  | (k, v) :: fs => Text.hasNul k || (hasNul v || fieldsNul fs)
end

end Json

namespace Rungrid

/-- The column for documents whose names do not repeat. -/
def Jsonb.sorted : Jsonb where
  store t := match Json.parse t with
    | none => none
    | some d => if d.hasNul then none else some (String.ofList (Json.Style.jsonb.write d.canon))
  faithful := by
    intro t t' d hparse _ hstore
    simp only [hparse] at hstore
    split at hstore
    · cases hstore
    · cases hstore
      exact ⟨d.canon, Json.Style.jsonb.parse_write d.canon, d.canon_reordered⟩

end Rungrid
