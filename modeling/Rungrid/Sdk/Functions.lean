-- SUMMARY: A function submitted with the client is called by the command with the same name and arguments.
import Rungrid.Base.Dumps
import Rungrid.Scheduler.Column
import Rungrid.Worker.Launch

/-!
# Submitted functions

`submit_function` of the client turns a function and its arguments into a command, with
the arguments as JSON texts inside of the JSON text of the definition. The definition is
decoded by the server, stored in a `jsonb` column, sent to a worker and started by it, and
`rungrid.invoke` takes the command apart again.

The arguments are documents whose numbers are integers and whose texts have no surrogates.
Other numbers are not modelled, and a tuple or a key that is not a text does not come back
from `json.loads` as it was.
-/

namespace Rungrid

namespace Sdk

/-! ## `submit_function` -/

/-- `json.dumps`. -/
def dumps (d : Json) : String := String.ofList (Dumps.dump d)

/-- The command of a function. -/
def command (function : String) (args : List Json) (kwargs : List (String × Json)) : List String :=
  ["python", "-m", "rungrid.invoke", function, "--args", dumps (.arr args), "--kwargs", dumps (.obj kwargs)]

/-- The definition that is submitted: `definition["command"] = [...]`. -/
def functionDefinition (function : String) (args : List Json) (kwargs definition : List (String × Json)) :
    List (String × Json) :=
  Dict.set definition "command" (.arr ((command function args kwargs).map .str))

/-- The body of the request of `submit`. -/
def body (definition : List (String × Json)) : String := dumps (.obj definition)

/-! ## `rungrid.invoke` -/

/-- The result of `parse_args`. -/
structure Namespace where
  function : Option String
  args : String
  kwargs : String

def Namespace.initial : Namespace := ⟨none, "[]", "\x7b\x7d"⟩

/-- An argument that can be an option. -/
def dashed (s : String) : Bool := Text.startsWith s "-"

/-- `parse_args`, or none for an error. Of the arguments that start with a dash only the
options are accepted, written in full and with their value in the next argument. -/
def parseArgs (ns : Namespace) : List String → Option Namespace
  | [] => if ns.function.isSome then some ns else none
  | [s] => if dashed s ∨ ns.function.isSome then none else some { ns with function := some s }
  | s :: t :: rest =>
      if s = "--args" then if dashed t then none else parseArgs { ns with args := t } rest
      else if s = "--kwargs" then if dashed t then none else parseArgs { ns with kwargs := t } rest
      else if dashed s ∨ ns.function.isSome then none
      else parseArgs { ns with function := some s } (t :: rest)

/-- `s.split(":", 1)`, if it has two parts. -/
def splitColon (s : String) : Option (String × String) :=
  match s.toList.dropWhile (· ≠ ':') with
  | [] => none
  | _ :: rest => some (String.ofList (s.toList.takeWhile (· ≠ ':')), String.ofList rest)

/-- The call that is made, with the entries of the keyword arguments in their order. -/
structure Invocation where
  module : String
  name : String
  args : List Json
  kwargs : List (String × Json)

/-- `main` up to the call of the function, which takes a list and an object. -/
def main (argv : List String) : Option Invocation := do
  let ns ← parseArgs .initial argv
  let (module, name) ← splitColon (← ns.function)
  match ← Json.parse ns.args, ← Json.parse ns.kwargs with
  | .arr xs, .obj fields => some ⟨module, name, xs, fields⟩
  | _, _ => none

/-- `sys.argv` of `python -m rungrid.invoke`, without the name of the program. -/
def argv (args : List String) : Option (List String) :=
  if args.take 3 = ["python", "-m", "rungrid.invoke"] then some (args.drop 3) else none

/-! ## Taking the command apart -/

theorem parse_dumps (d : Json) : Json.parse (dumps d) = some d := Dumps.parse_dump d

theorem not_dashed {s : String} {c : Char} {cs : List Char} (h : s.toList = c :: cs) (hc : c ≠ '-') :
    dashed s = false := by
  simp [dashed, Text.startsWith, h, List.isPrefixOf, Ne.symm hc]

theorem dumps_arr_not_dashed (xs : List Json) : dashed (dumps (.arr xs)) = false := by
  cases xs with
  | nil => exact not_dashed (String.toList_ofList) (by decide)
  | cons x xs => exact not_dashed (String.toList_ofList) (by decide)

theorem dumps_obj_not_dashed (fs : List (String × Json)) : dashed (dumps (.obj fs)) = false := by
  cases fs with
  | nil => exact not_dashed (String.toList_ofList) (by decide)
  | cons f fs => exact not_dashed (String.toList_ofList) (by decide)

theorem parseArgs_command {function : String} (h : dashed function = false) {args kwargs : String}
    (hargs : dashed args = false) (hkwargs : dashed kwargs = false) :
    parseArgs .initial [function, "--args", args, "--kwargs", kwargs] = some ⟨some function, args, kwargs⟩ := by
  have hne : function ≠ "--args" ∧ function ≠ "--kwargs" := by
    constructor <;> (rintro rfl; exact absurd h (by decide))
  simp [parseArgs, Namespace.initial, h, hargs, hkwargs, hne.1, hne.2]

theorem splitColon_append {module : String} (h : ':' ∉ module.toList) (name : String) :
    splitColon (module ++ ":" ++ name) = some (module, name) := by
  have hne : ∀ c ∈ module.toList, decide (c ≠ ':') = true :=
    fun c hc => by simpa using fun heq : c = ':' => h (heq ▸ hc)
  have hlist : (module ++ ":" ++ name).toList = module.toList ++ ':' :: name.toList := by
    simp
  simp only [splitColon, hlist, List.dropWhile_append_of_pos hne, List.takeWhile_append_of_pos hne]
  simp

/-- The command is taken apart as it was put together. -/
theorem main_command {module name : String} (hmodule : ':' ∉ module.toList)
    (hfunction : dashed (module ++ ":" ++ name) = false) (args : List Json) (kwargs : List (String × Json)) :
    (argv (command (module ++ ":" ++ name) args kwargs)).bind main = some ⟨module, name, args, kwargs⟩ := by
  have hargv : argv (command (module ++ ":" ++ name) args kwargs) = some
      [module ++ ":" ++ name, "--args", dumps (.arr args), "--kwargs", dumps (.obj kwargs)] := rfl
  have hns := parseArgs_command hfunction (dumps_arr_not_dashed args) (dumps_obj_not_dashed kwargs)
  simp only [hargv, Option.bind_some, main, hns, Option.bind_eq_bind, splitColon_append hmodule,
    parse_dumps]

end Sdk

/-! ## The definition at the server -/

namespace Decode

/-- A member that is not the command leaves the command as it is. -/
theorem setField_command_ne {t t' : Target} {f : String × Json} (h : setField t f = some t')
    (hf : foldName f.1 ≠ "command") : t'.job.command = t.job.command := by
  simp only [setField, if_neg hf] at h
  iterate 7
    split at h
    · obtain ⟨_, -, rfl⟩ := Option.map_eq_some_iff.mp h
      rfl
  cases h

theorem setField_command {t t' : Target} {name : String} {s : String} {ss : List String}
    (h : setField t (name, .arr ((s :: ss).map .str)) = some t') (hf : foldName name = "command") :
    t'.job.command = some (s :: ss) := by
  have hstrs := decodeElements_strs t.backing (s :: ss)
  simp only [List.map_cons] at h hstrs
  simp only [setField, hf, reduceIte, String.reduceEq, decodeCommand, hstrs, Option.bind_eq_bind,
    Option.bind_some, Option.pure_def, Option.some.injEq] at h
  rw [← h]

/-- If all members that are a command have the same strings, the job has them. -/
theorem fields_command {fields : List (String × Json)} {t t' : Target} {s : String} {ss : List String}
    (h : fields.foldlM setField t = some t')
    (hall : ∀ f ∈ fields, foldName f.1 = "command" → f.2 = .arr ((s :: ss).map .str))
    (hsome : t.job.command = some (s :: ss) ∨ ∃ f ∈ fields, foldName f.1 = "command") :
    t'.job.command = some (s :: ss) := by
  induction fields generalizing t with
  | nil =>
      cases h
      rcases hsome with hset | ⟨f, hf, -⟩
      · exact hset
      · cases hf
  | cons f fields ih =>
      rw [List.foldlM_cons] at h
      obtain ⟨t₁, hfirst, hrest⟩ := Option.bind_eq_some_iff.mp h
      refine ih hrest (fun g hg => hall g (List.mem_cons_of_mem f hg)) ?_
      by_cases hname : foldName f.1 = "command"
      · have hvalue := hall f List.mem_cons_self hname
        have hset : setField t (f.1, .arr ((s :: ss).map .str)) = some t₁ := by
          rw [← hvalue]
          exact hfirst
        exact .inl (setField_command hset hname)
      · rcases hsome with hset | ⟨g, hg, hgname⟩
        · exact .inl ((setField_command_ne hfirst hname).trans hset)
        · rcases List.mem_cons.mp hg with rfl | hg
          · exact absurd hgname hname
          · exact .inr ⟨g, hg, hgname⟩

end Decode

namespace Sdk

/-- The names of a definition that the server takes for the command are those the client
overwrites. -/
def Unambiguous (definition : List (String × Json)) : Prop :=
  ∀ f ∈ definition, Decode.foldName f.1 = "command" → f.1 = "command"

instance (definition : List (String × Json)) : Decidable (Unambiguous definition) :=
  inferInstanceAs (Decidable (∀ f ∈ definition, Decode.foldName f.1 = "command" → f.1 = "command"))

/-- The command the server decodes is the one of the function. -/
theorem decode_functionDefinition {function : String} {args : List Json}
    {kwargs definition : List (String × Json)} (hnames : Unambiguous definition) {j : Job}
    (h : (Json.parse (body (functionDefinition function args kwargs definition))).bind Decode.decode
      = some j) : j.command = some (command function args kwargs) := by
  rw [body, parse_dumps, Option.bind_some, Decode.decode] at h
  obtain ⟨t, ht, rfl⟩ := Option.map_eq_some_iff.mp h
  refine Decode.fields_command ht (fun f hf hname => ?_) (.inr ?_)
  · rcases Dict.mem_set_cases hf with rfl | ⟨hold, hne⟩
    · rfl
    · exact absurd (hnames f hold hname) hne
  · exact ⟨_, Dict.mem_set_self definition "command" _, Decode.foldName_field "command" (by decide)⟩

end Sdk

theorem Jsonb.sorted_store {j : Job} (h : j.toJson.hasNul = false) :
    ∃ column, Jsonb.sorted.store j.marshal = some column := by
  have hparse : Json.parse j.marshal = some j.toJson := Json.parse_marshal _
  refine ⟨String.ofList (Json.Style.jsonb.write j.toJson.canon), ?_⟩
  simp only [Jsonb.sorted, hparse, h, Bool.false_eq_true, if_false]

namespace Sample

/-- The arguments of a function with the signature `(path, *, rate)`. -/
def functionArgs : List Json := [.str "a.csv"]

def functionKwargs : List (String × Json) := [("rate", .int (-3))]

/-- The other members of the definition, with a command that is overwritten. -/
def functionMembers : List (String × Json) :=
  [("name", .str "n"), ("command", .null), ("environment", .obj [("SEED", .str "7")]),
    ("resources", .obj [("cpu", .int 1), ("memory_mb", .int 64)]), ("max_attempts", .int 3),
    ("timeout_seconds", .int 30), ("idempotency_key", .str "k")]

def functionJob : Job := { variableLease.job.definition with
  command := some (Sdk.command "train:main" functionArgs functionKwargs) }

def functionLease : Lease := { lease with job := { lease.job with definition := functionJob } }

end Sample

end Rungrid
