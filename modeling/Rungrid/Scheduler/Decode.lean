-- SUMMARY: Decoding the body of a submission into a job definition, as `encoding/json` does with unknown fields disallowed.
import Mathlib.Algebra.Group.Int.Defs
import Rungrid.Scheduler.Model

/-!
# Decoding a submission

`decode` of `internal/api/http.go` at a `scheduler.Job`. The members of the body are
taken in order, and each is decoded into what the members before it left: `null`
leaves a string, a number or a structure as it is and makes a slice or a map nil, an
object is merged into the map or structure that is there. A member that is absent, a
member that is `null` and an empty one are three different things here.
-/

namespace Rungrid

namespace GoMap

/-- The entries after `m[k] = v`. -/
def insertEntry (k v : String) : List (String × String) → List (String × String)
  | [] => [(k, v)]
  | e :: es =>
      if k < e.1 then (k, v) :: e :: es
      else if k = e.1 then (k, v) :: es
      else e :: insertEntry k v es

theorem mem_insertEntry {k v : String} {es : List (String × String)} {e : String × String}
    (h : e ∈ insertEntry k v es) : e = (k, v) ∨ e ∈ es := by
  induction es with
  | nil => exact .inl (List.mem_singleton.mp h)
  | cons f es ih =>
      unfold insertEntry at h
      split at h
      · exact List.mem_cons.mp h
      split at h
      · exact (List.mem_cons.mp h).imp_right (List.mem_cons_of_mem f)
      · rcases List.mem_cons.mp h with rfl | h
        · exact .inr List.mem_cons_self
        · exact (ih h).imp_right (List.mem_cons_of_mem f)

theorem insertEntry_sorted (k v : String) {es : List (String × String)}
    (h : es.Pairwise (fun a b => a.1 < b.1)) :
    (insertEntry k v es).Pairwise (fun a b => a.1 < b.1) := by
  induction es with
  | nil => exact List.pairwise_singleton _ _
  | cons f es ih =>
      obtain ⟨hf, hes⟩ := List.pairwise_cons.mp h
      unfold insertEntry
      split
      · rename_i hlt
        refine List.pairwise_cons.mpr ⟨fun e he => ?_, h⟩
        rcases List.mem_cons.mp he with rfl | he
        · exact hlt
        · exact String.lt_trans hlt (hf e he)
      split
      · rename_i heq
        subst heq
        exact List.pairwise_cons.mpr ⟨hf, hes⟩
      · rename_i hnlt hne
        refine List.pairwise_cons.mpr ⟨fun e he => ?_, ih hes⟩
        rcases mem_insertEntry he with rfl | he
        · by_contra hge
          exact hne (String.le_antisymm (String.not_lt.mp hge) (String.not_lt.mp hnlt))
        · exact hf e he

/-- `make(map[string]string)`. -/
def empty : GoMap := ⟨[], List.Pairwise.nil⟩

/-- `m[k] = v`. -/
def insert (m : GoMap) (k v : String) : GoMap :=
  ⟨insertEntry k v m.entries, insertEntry_sorted k v m.sorted⟩

end GoMap

namespace Decode

/-! ## Names -/

/-- Two characters outside ASCII, the long s and the kelvin sign, differ from a letter
in case only. -/
def foldChar (c : Char) : Char :=
  if c = Char.ofNat 0x17f then 's'
  else if c = Char.ofNat 0x212a then 'k'
  else c.toLower

/-- Field names are matched without regard to case. -/
def foldName (name : String) : String := String.ofList (name.toList.map foldChar)

/-! ## Values -/

def decodeString (old : String) : Json → Option String
  | .null => some old
  | .str s => some s
  | _ => none

/-- A Go `int` has 64 bits. -/
def decodeInt (old : Int) : Json → Option Int
  | .null => some old
  | .int n => if -(2 ^ 63) ≤ n ∧ n < 2 ^ 63 then some n else none
  | _ => none

def setResource (r : Resources) (f : String × Json) : Option Resources :=
  if foldName f.1 = "cpu" then (decodeInt r.cpu f.2).map (fun n => { r with cpu := n })
  else if foldName f.1 = "memory_mb" then
    (decodeInt r.memoryMB f.2).map (fun n => { r with memoryMB := n })
  else if foldName f.1 = "gpu" then (decodeInt r.gpu f.2).map (fun n => { r with gpu := n })
  else none

def decodeResources (old : Resources) : Json → Option Resources
  | .null => some old
  | .obj fields => fields.foldlM setResource old
  | _ => none

/-- The elements of an array, each decoded into the element of the backing array. -/
def decodeElements {α : Type} (dec : α → Json → Option α) (zero : α) :
    List α → List Json → Option (List α)
  | _, [] => some []
  | backing, x :: xs => do
      let a ← dec (backing.headD zero) x
      let as ← decodeElements dec zero backing.tail xs
      return a :: as

/-- An entry of a map is decoded into an empty string. -/
def setEntry (m : GoMap) (f : String × Json) : Option GoMap :=
  (decodeString "" f.2).map (m.insert f.1)

def decodeMap (old : Option GoMap) : Json → Option (Option GoMap)
  | .null => some none
  | .obj fields => (fields.foldlM setEntry (old.getD GoMap.empty)).map some
  | _ => none

/-! ## Jobs -/

/-- The definition decoded so far, and the array behind its command. Decoding a second
array reuses the first one's elements where it holds `null`. -/
structure Target where
  job : Job
  backing : List String

/-- The zero value of `scheduler.Job`. -/
def zero : Target := ⟨⟨"", none, none, Resources.zero, 0, 0, "", ""⟩, []⟩

def decodeCommand (t : Target) : Json → Option Target
  | .null => some ⟨{ t.job with command := none }, []⟩
  | .arr [] => some ⟨{ t.job with command := some [] }, []⟩
  | .arr xs => do
      let ss ← decodeElements decodeString "" t.backing xs
      return ⟨{ t.job with command := some ss }, ss ++ t.backing.drop ss.length⟩
  | _ => none

/-- One member of the body. -/
def setField (t : Target) (f : String × Json) : Option Target :=
  let j := t.job
  if foldName f.1 = "name" then
    (decodeString j.name f.2).map (fun s => { t with job := { j with name := s } })
  else if foldName f.1 = "command" then decodeCommand t f.2
  else if foldName f.1 = "environment" then
    (decodeMap j.environment f.2).map (fun m => { t with job := { j with environment := m } })
  else if foldName f.1 = "resources" then
    (decodeResources j.resources f.2).map (fun r => { t with job := { j with resources := r } })
  else if foldName f.1 = "max_attempts" then
    (decodeInt j.maxAttempts f.2).map (fun n => { t with job := { j with maxAttempts := n } })
  else if foldName f.1 = "timeout_seconds" then
    (decodeInt j.timeoutSeconds f.2).map (fun n => { t with job := { j with timeoutSeconds := n } })
  else if foldName f.1 = "idempotency_key" then
    (decodeString j.idempotencyKey f.2).map (fun s => { t with job := { j with idempotencyKey := s } })
  else if foldName f.1 = "artifact_prefix" then
    (decodeString j.artifactPrefix f.2).map (fun s => { t with job := { j with artifactPrefix := s } })
  else none

/-- `decode`: the definition of a body with one document, or none for an error. -/
def decode : Json → Option Job
  | .null => some zero.job
  | .obj fields => (fields.foldlM setField zero).map Target.job
  | _ => none

/-! ## The environment of a body -/

/-- The value of the last member that is the environment. -/
def lastEnvironment : List (String × Json) → Option Json
  | [] => none
  | f :: fs => (lastEnvironment fs).or (if foldName f.1 = "environment" then some f.2 else none)

/-- The body has an environment, and the last one is an object. -/
def HasEnvironment : Json → Prop
  | .obj fields => ∃ entries, lastEnvironment fields = some (.obj entries)
  | _ => False

theorem setField_environment {t t' : Target} {f : String × Json} (h : setField t f = some t')
    (hf : foldName f.1 = "environment") :
    (f.2 = .null ∧ t'.job.environment = none) ∨
      ∃ entries, f.2 = .obj entries ∧ t'.job.environment.isSome = true := by
  simp only [setField, hf, reduceIte, String.reduceEq] at h
  obtain ⟨m, hm, rfl⟩ := Option.map_eq_some_iff.mp h
  unfold decodeMap at hm
  split at hm
  · rename_i hnull
    cases hm
    exact .inl ⟨hnull, rfl⟩
  · rename_i entries hobj
    obtain ⟨m', -, rfl⟩ := Option.map_eq_some_iff.mp hm
    exact .inr ⟨entries, hobj, rfl⟩
  · cases hm

theorem decodeCommand_environment {t t' : Target} {v : Json} (h : decodeCommand t v = some t') :
    t'.job.environment = t.job.environment := by
  unfold decodeCommand at h
  split at h
  · cases h; rfl
  · cases h; rfl
  · obtain ⟨ss, -, h⟩ := Option.bind_eq_some_iff.mp h
    cases h; rfl
  · cases h

/-- Another member leaves the environment as it is. -/
theorem setField_environment_ne {t t' : Target} {f : String × Json} (h : setField t f = some t')
    (hf : foldName f.1 ≠ "environment") : t'.job.environment = t.job.environment := by
  simp only [setField, if_neg hf] at h
  split at h
  · obtain ⟨_, -, rfl⟩ := Option.map_eq_some_iff.mp h; rfl
  split at h
  · exact decodeCommand_environment h
  iterate 5
    split at h
    · obtain ⟨_, -, rfl⟩ := Option.map_eq_some_iff.mp h; rfl
  cases h

/-- The members decide the environment by their last one, or leave it as it is. -/
theorem fields_environment {fields : List (String × Json)} {t t' : Target}
    (h : fields.foldlM setField t = some t') :
    (lastEnvironment fields = none ∧ t'.job.environment = t.job.environment) ∨
      (lastEnvironment fields = some .null ∧ t'.job.environment = none) ∨
      ∃ entries, lastEnvironment fields = some (.obj entries) ∧ t'.job.environment.isSome = true := by
  induction fields generalizing t with
  | nil =>
      cases h
      exact .inl ⟨rfl, rfl⟩
  | cons f fields ih =>
      rw [List.foldlM_cons] at h
      obtain ⟨t₁, hf, h⟩ := Option.bind_eq_some_iff.mp h
      rcases ih h with ⟨hlast, henv⟩ | ⟨hlast, henv⟩ | ⟨entries, hlast, henv⟩
      · -- No later member is the environment, so this one decides.
        by_cases hname : foldName f.1 = "environment"
        · rw [lastEnvironment, hlast, Option.none_or, if_pos hname, henv]
          rcases setField_environment hf hname with ⟨hnull, hnone⟩ | ⟨entries, hobj, hsome⟩
          · exact .inr (.inl ⟨congrArg some hnull, hnone⟩)
          · exact .inr (.inr ⟨entries, congrArg some hobj, hsome⟩)
        · rw [lastEnvironment, hlast, Option.none_or, if_neg hname, henv]
          exact .inl ⟨rfl, setField_environment_ne hf hname⟩
      · exact .inr (.inl ⟨by rw [lastEnvironment, hlast, Option.some_or], henv⟩)
      · exact .inr (.inr ⟨entries, by rw [lastEnvironment, hlast, Option.some_or], henv⟩)

/-- The decoded environment is not nil exactly if the body has one. -/
theorem decode_environment {body : Json} {j : Job} (h : decode body = some j) :
    j.environment.isSome = true ↔ HasEnvironment body := by
  unfold decode at h
  split at h
  · cases h
    exact ⟨(nomatch ·), False.elim⟩
  · rename_i fields
    obtain ⟨t, ht, rfl⟩ := Option.map_eq_some_iff.mp h
    rcases fields_environment ht with ⟨hlast, henv⟩ | ⟨hlast, henv⟩ | ⟨entries, hlast, henv⟩
    · simp [HasEnvironment, hlast, henv, zero]
    · simp [HasEnvironment, hlast, henv]
    · simp [HasEnvironment, hlast, henv]
  · cases h

end Decode

end Rungrid
