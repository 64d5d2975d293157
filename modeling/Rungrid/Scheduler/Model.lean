-- SUMMARY: The scheduler's job definitions, their validation, resource arithmetic and the retry decision.
import Rungrid.Base.Parse
import Rungrid.Scheduler.Uuid

/-!
# Job definitions

The model of `internal/scheduler/model.go`. A Go slice or map distinguishes nil
from empty, and `encoding/json` writes `null` for one and `[]` or an empty object
for the other, so both are options here.
-/

namespace Rungrid

/-- A Go slice: nil, or its elements. -/
abbrev GoSlice (α : Type) := Option (List α)

/-- The elements a `range` over the slice visits. -/
def GoSlice.elems {α : Type} (s : GoSlice α) : List α := s.getD []

def GoSlice.toJson {α : Type} (enc : α → Json) : GoSlice α → Json
  | none => .null
  | some xs => .arr (xs.map enc)

/-- A Go `map[string]string` that is not nil. The entries stand in increasing key
order, which is also the order `encoding/json` writes them in. -/
structure GoMap where
  entries : List (String × String)
  sorted : entries.Pairwise (fun a b => a.1 < b.1)
deriving DecidableEq

def GoMap.toJson : Option GoMap → Json
  | none => .null
  | some m => .obj (m.entries.map (fun e => (e.1, .str e.2)))

/-! ## Resources -/

structure Resources where
  cpu : Int
  memoryMB : Int
  gpu : Int
deriving DecidableEq, Repr

namespace Resources

def Valid (r : Resources) : Prop :=
  0 ≤ r.cpu ∧ 0 ≤ r.memoryMB ∧ 0 ≤ r.gpu ∧
    r.cpu ≤ 1000000 ∧ r.memoryMB ≤ 1000000000 ∧ r.gpu ≤ 1000000

instance : DecidablePred Valid := fun _ => inferInstanceAs (Decidable (_ ∧ _))

/-- Component-wise order: the comparison the placement query makes. -/
def Le (r cap : Resources) : Prop :=
  r.cpu ≤ cap.cpu ∧ r.memoryMB ≤ cap.memoryMB ∧ r.gpu ≤ cap.gpu

instance : DecidableRel Le := fun _ _ => inferInstanceAs (Decidable (_ ∧ _))

def Fits (r cap : Resources) : Prop := r.Valid ∧ r.Le cap

instance : DecidableRel Fits := fun _ _ => inferInstanceAs (Decidable (_ ∧ _))

def add (a b : Resources) : Resources :=
  ⟨a.cpu + b.cpu, a.memoryMB + b.memoryMB, a.gpu + b.gpu⟩

def sub (a b : Resources) : Resources :=
  ⟨a.cpu - b.cpu, a.memoryMB - b.memoryMB, a.gpu - b.gpu⟩

def zero : Resources := ⟨0, 0, 0⟩

/-- `coalesce(sum(..),0)` in each component. -/
def sum (rs : List Resources) : Resources := rs.foldr add zero

def toJson (r : Resources) : Json :=
  .obj [("cpu", .int r.cpu), ("memory_mb", .int r.memoryMB), ("gpu", .int r.gpu)]

end Resources

/-! ## Jobs -/

structure Job where
  name : String
  command : GoSlice String
  environment : Option GoMap
  resources : Resources
  maxAttempts : Int
  timeoutSeconds : Int
  idempotencyKey : String
  artifactPrefix : String
deriving DecidableEq

namespace Job

def toJson (j : Job) : Json :=
  .obj [("name", .str j.name), ("command", j.command.toJson .str),
    ("environment", GoMap.toJson j.environment), ("resources", j.resources.toJson),
    ("max_attempts", .int j.maxAttempts), ("timeout_seconds", .int j.timeoutSeconds),
    ("idempotency_key", .str j.idempotencyKey), ("artifact_prefix", .str j.artifactPrefix)]

/-- `json.Marshal(j)`. -/
def marshal (j : Job) : String := j.toJson.marshal

/-- `^[A-Za-z_][A-Za-z0-9_]*$`. -/
def envKey (k : String) : Bool :=
  match k.toList with
  | [] => false
  | c :: cs => (c.isAlpha || c = '_') && cs.all (fun d => d.isAlphanum || d = '_')

/-- The message for the first entry of the environment that is rejected. Go visits
the entries in an unspecified order; this is the increasing one. -/
def environmentError : List (String × String) → Option String
  | [] => none
  | (k, v) :: rest =>
      if !envKey k || Text.hasNul v || Text.startsWith k "RUNGRID_" then
        some ("invalid or reserved environment variable " ++ k.quote)
      else environmentError rest

/-- `Job.Validate`: the text of the first error, or none. -/
def validate (j : Job) : Option String :=
  if j.name.utf8ByteSize = 0 ∨ j.name.utf8ByteSize > 256 ∨ j.idempotencyKey.utf8ByteSize = 0 ∨
      j.idempotencyKey.utf8ByteSize > 256 then
    some "name and idempotency_key must contain 1..256 bytes"
  else if j.command.elems.length = 0 ∨ j.command.elems.head? = some "" ∨
      j.command.elems.length > 1024 then
    some "command is required"
  else if j.command.elems.any Text.hasNul then
    some "command contains NUL"
  else if ¬ j.resources.Valid ∨ j.resources.cpu < 1 ∨ j.resources.memoryMB < 1 then
    some "positive cpu and memory_mb, nonnegative gpu required"
  else if j.maxAttempts < 1 ∨ j.maxAttempts > 100 ∨ j.timeoutSeconds < 1 ∨
      j.timeoutSeconds > 604800 then
    some "max_attempts must be 1..100 and timeout_seconds 1..604800"
  else match environmentError ((j.environment.map GoMap.entries).getD []) with
    | some e => some e
    | none =>
        if Text.startsWith j.artifactPrefix "/" ∨ Text.contains j.artifactPrefix ".." ∨
            j.artifactPrefix.utf8ByteSize > 512 then
          some "invalid artifact_prefix"
        else none

/-- The definitions `Validate` accepts. -/
def Valid (j : Job) : Prop := j.validate = none

instance : DecidablePred Valid := fun _ => inferInstanceAs (Decidable (_ = _))

/-- Some string of the definition holds a character `jsonb` does not store. -/
def hasNul (j : Job) : Bool :=
  Text.hasNul j.name || j.command.elems.any Text.hasNul ||
    ((j.environment.map GoMap.entries).getD []).any (fun e => Text.hasNul e.1 || Text.hasNul e.2) ||
    Text.hasNul j.idempotencyKey || Text.hasNul j.artifactPrefix

theorem hasNul_eq_false {j : Job} : j.hasNul = false ↔ Text.hasNul j.name = false ∧
    j.command.elems.any Text.hasNul = false ∧
    ((j.environment.map GoMap.entries).getD []).any (fun e => Text.hasNul e.1 || Text.hasNul e.2)
      = false ∧ Text.hasNul j.idempotencyKey = false ∧ Text.hasNul j.artifactPrefix = false := by
  simp only [hasNul, Bool.or_eq_false_iff, and_assoc]

end Job

/-! ## What validation guarantees -/

theorem Job.Valid.resources {j : Job} (h : j.Valid) :
    j.resources.Valid ∧ 1 ≤ j.resources.cpu ∧ 1 ≤ j.resources.memoryMB := by
  unfold Valid validate at h
  split at h
  · cases h
  split at h
  · cases h
  split at h
  · cases h
  split at h
  · cases h
  · rename_i hr
    push Not at hr
    exact ⟨hr.1, by omega, by omega⟩

theorem Job.Valid.bounds {j : Job} (h : j.Valid) :
    1 ≤ j.maxAttempts ∧ j.maxAttempts ≤ 100 ∧ 1 ≤ j.timeoutSeconds ∧
      j.timeoutSeconds ≤ 604800 := by
  unfold Valid validate at h
  split at h
  · cases h
  split at h
  · cases h
  split at h
  · cases h
  split at h
  · cases h
  split at h
  · cases h
  · rename_i hb
    omega

theorem Job.environmentError_none {es : List (String × String)} (h : environmentError es = none) :
    ∀ e ∈ es, envKey e.1 = true ∧ Text.hasNul e.2 = false ∧
      Text.startsWith e.1 "RUNGRID_" = false := by
  induction es with
  | nil => simp
  | cons e es ih =>
      obtain ⟨k, v⟩ := e
      simp only [environmentError] at h
      split at h
      · cases h
      · rename_i hentry
        simp only [Bool.or_eq_true, not_or, Bool.not_eq_true', Bool.not_eq_false,
          Bool.not_eq_true] at hentry
        exact List.forall_mem_cons.mpr ⟨⟨hentry.1.1, hentry.1.2, hentry.2⟩, ih h⟩

theorem Job.envKey_hasNul {k : String} (h : envKey k = true) : Text.hasNul k = false := by
  rw [Text.hasNul, List.contains_eq_mem, decide_eq_false_iff_not]
  intro hmem
  unfold envKey at h
  split at h
  · cases h
  · rename_i c cs hk
    rw [hk] at hmem
    simp only [Bool.and_eq_true, List.all_eq_true] at h
    rcases List.mem_cons.mp hmem with rfl | hmem
    · exact absurd h.1 (by decide)
    · exact absurd (h.2 _ hmem) (by decide)

/-- What `Validate` checks of the command, the environment and the prefix. -/
theorem Job.Valid.texts {j : Job} (h : j.Valid) :
    (j.command.elems ≠ [] ∧ j.command.elems.head? ≠ some "") ∧
      j.command.elems.any Text.hasNul = false ∧
      environmentError ((j.environment.map GoMap.entries).getD []) = none ∧
      Text.contains j.artifactPrefix ".." = false := by
  unfold Valid validate at h
  split at h
  · cases h
  split at h
  · cases h
  rename_i hcommand
  split at h
  · cases h
  rename_i hnul
  split at h
  · cases h
  split at h
  · cases h
  split at h
  · cases h
  rename_i henv
  split at h
  · cases h
  · rename_i hprefix
    push Not at hcommand hprefix
    exact ⟨⟨fun hnil => hcommand.1 (by simp [hnil]), hcommand.2.1⟩, by simpa using hnul, henv,
      by simpa using hprefix.2.1⟩

/-- The texts of a valid definition that can hold U+0000. -/
theorem Job.Valid.hasNul_eq {j : Job} (h : j.Valid) : j.hasNul =
    (Text.hasNul j.name || Text.hasNul j.idempotencyKey || Text.hasNul j.artifactPrefix) := by
  obtain ⟨-, hcommand, henv, -⟩ := h.texts
  have henv' : ((j.environment.map GoMap.entries).getD []).any
      (fun e => Text.hasNul e.1 || Text.hasNul e.2) = false := by
    rw [List.any_eq_false]
    intro e he
    obtain ⟨hk, hv, -⟩ := Job.environmentError_none henv e he
    simp [Job.envKey_hasNul hk, hv]
  rw [Job.hasNul, hcommand, henv', Bool.or_false, Bool.or_false]

/-! ## The text of a definition determines it -/

theorem GoSlice.toJson_injective {α : Type} {enc : α → Json}
    (henc : Function.Injective enc) : Function.Injective (GoSlice.toJson enc) := by
  intro a b h
  cases a with
  | none => cases b <;> simp_all [toJson]
  | some xs =>
      cases b with
      | none => simp [toJson] at h
      | some ys =>
          simp only [toJson, Json.arr.injEq] at h
          rw [List.map_injective_iff.mpr henc h]

private theorem GoMap.toJson_injective : Function.Injective GoMap.toJson := by
  intro a b h
  cases a with
  | none => cases b <;> simp_all [toJson]
  | some m =>
      cases b with
      | none => simp [toJson] at h
      | some n =>
          obtain ⟨es, hs⟩ := m
          obtain ⟨fs, ht⟩ := n
          simp only [toJson, Json.obj.injEq] at h
          have hinj : Function.Injective (fun e : String × String => (e.1, Json.str e.2)) := by
            rintro ⟨k, v⟩ ⟨k', v'⟩ he
            simpa using he
          have hes := List.map_injective_iff.mpr hinj h
          subst hes
          rfl

theorem Resources.toJson_injective : Function.Injective Resources.toJson := by
  rintro ⟨a, b, c⟩ ⟨a', b', c'⟩ h
  simpa [toJson] using h

theorem Job.toJson_injective : Function.Injective Job.toJson := by
  rintro ⟨n, c, e, r, m, t, k, p⟩ ⟨n', c', e', r', m', t', k', p'⟩ h
  simp only [toJson, Json.obj.injEq, List.cons.injEq, Prod.mk.injEq, true_and, Json.str.injEq,
    Json.int.injEq, and_true] at h
  obtain ⟨rfl, hc, he, hr, rfl, rfl, rfl, rfl⟩ := h
  obtain rfl := GoSlice.toJson_injective (fun _ _ h => by simpa using h) hc
  obtain rfl := GoMap.toJson_injective he
  obtain rfl := Resources.toJson_injective hr
  rfl

/-- Two definitions with the same marshalled text are the same definition. -/
theorem Job.marshal_injective : Function.Injective Job.marshal :=
  Json.marshal_injective.comp Job.toJson_injective

/-! ## Retries -/

/-- What becomes of a job whose attempt `number` failed or expired. The states
are those of the `jobs` table. -/
inductive JobState where
  | queued
  | leased
  | running
  | succeeded
  | failed
  | cancelled
deriving DecidableEq, Repr

def retryState (number max : Int) : JobState := if number < max then .queued else .failed

end Rungrid
