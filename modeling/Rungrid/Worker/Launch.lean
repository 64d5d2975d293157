-- SUMMARY: The command and the environment the worker builds from the JSON of a lease, and when it can build them.
import Rungrid.Base.Dict
import Rungrid.Scheduler.Decode
import Rungrid.Worker.Artifacts

/-!
# Launching a command

The part of `Worker.execute` between `StartAttempt` and the return of `Popen`. The
worker reads the lease as the JSON the server wrote, so a Go value that is nil
arrives as `None`. The values of a dictionary are JSON documents until `Popen` turns
them into the arguments and variables of a process.
-/

namespace Rungrid

/-! ## The JSON of a lease -/

/-- The members of a job that `execute` reads. -/
def JobRow.toJson (row : JobRow) : Json :=
  .obj [("id", .str row.id.text), ("definition", row.definition.toJson)]

/-- The members of a lease that `execute` reads. `checkpoint` has `omitempty`. -/
def Lease.toJson (l : Lease) : Json :=
  .obj ([("job", l.job.toJson), ("attempt_id", .str l.attemptID.text),
      ("attempt_number", .int l.attemptNumber), ("lease_token", .str l.leaseToken.text)] ++
    (l.checkpoint.map (fun a => ("checkpoint", a.toJson))).toList)

namespace Worker

/-! ## Python values -/

/-- The exceptions the code between `StartAttempt` and `Popen` can raise. -/
inductive PyError where
  | typeError
  | attributeError
  | keyError
  | indexError
  | valueError
  | runtimeError
deriving DecidableEq, Repr

/-- `d[k]`. -/
def item (k : String) : Json → Except PyError Json
  | .obj fields => match Dict.get k fields with
    | some v => .ok v
    | none => .error .keyError
  | _ => .error .typeError

/-- `d.get(k, default)`. -/
def getDefault (k : String) (default : Json) : Json → Except PyError Json
  | .obj fields => .ok ((Dict.get k fields).getD default)
  | _ => .error .attributeError

/-- `bool(v)`. -/
def truthy : Json → Bool
  | .null => false
  | .bool b => b
  | .int n => n ≠ 0
  | .str s => s ≠ ""
  | .arr xs => !xs.isEmpty
  | .obj fields => !fields.isEmpty

/-- `str(n)` of an integer. -/
def decimal (n : Int) : String := String.ofList (Json.renderInt n)

/-- `str(v)` of an integer or a string. -/
def pyStr : Json → String
  | .int n => decimal n
  | .str s => s
  | v => v.marshal

/-- `os.environ | v`, which only a mapping supports. -/
def union (environ : List (String × String)) : Json → Except PyError (List (String × Json))
  | .obj fields => .ok (Dict.update (environ.map (fun e => (e.1, .str e.2))) fields)
  | _ => .error .typeError

/-! ## The environment -/

/-- What the worker's own process brings: its environment, and the temporary directory
of the attempt. -/
structure Host where
  environ : List (String × String)
  directory : String
  environ_ok : ∀ e ∈ environ,
    '=' ∉ e.1.toList ∧ Text.hasNul e.1 = false ∧ Text.hasNul e.2 = false
  directory_ok : Text.hasNul directory = false

namespace Host

def outputs (h : Host) : String := h.directory ++ "/outputs"

def checkpoints (h : Host) : String := h.directory ++ "/checkpoints"

/-- The file a checkpoint is restored to. -/
def restored (h : Host) : String := h.directory ++ "/resume.json"

end Host

/-- The variables `env.update` sets. -/
def settings (h : Host) (jobID attemptID attemptNumber : Json) : List (String × Json) :=
  [("RUNGRID_JOB_ID", jobID), ("RUNGRID_ATTEMPT_ID", attemptID),
    ("RUNGRID_ATTEMPT_NUMBER", .str (pyStr attemptNumber)),
    ("RUNGRID_OUTPUT_DIR", .str h.outputs), ("RUNGRID_CHECKPOINT_DIR", .str h.checkpoints),
    ("PYTHONUNBUFFERED", .str "1")]

/-- The dictionary `env` that is passed to `Popen`. `restore` is what
`artifacts.restore` does with the checkpoint of the lease. -/
def environment (h : Host) (restore : Json → Except PyError Unit) (lease : Json) :
    Except PyError (List (String × Json)) := do
  let job ← item "job" lease
  let definition ← item "definition" job
  let env ← union h.environ (← getDefault "environment" (.obj []) definition)
  let env := Dict.update env (settings h (← item "id" job) (← item "attempt_id" lease)
    (← item "attempt_number" lease))
  let env := Dict.pop env "RUNGRID_CHECKPOINT_PATH"
  if truthy (← getDefault "checkpoint" .null lease) then
    restore (← item "checkpoint" lease)
    return Dict.set env "RUNGRID_CHECKPOINT_PATH" (.str h.restored)
  else return env

/-! ## The process -/

/-- A started command: its arguments and its environment. -/
structure Child where
  args : List String
  env : List (String × String)
deriving DecidableEq, Repr

/-- An argument or the value of a variable. -/
def cString : Json → Except PyError String
  | .str s => if Text.hasNul s then .error .valueError else .ok s
  | _ => .error .typeError

def cVariable (e : String × Json) : Except PyError (String × String) :=
  if '=' ∈ e.1.toList ∨ Text.hasNul e.1 then .error .valueError
  else do return (e.1, ← cString e.2)

/-- What `Popen` makes of its arguments before it starts the process. -/
def popen (command : Json) (env : List (String × Json)) : Except PyError Child :=
  match command with
  | .arr [] => .error .indexError
  | .arr xs => do
      let env ← env.mapM cVariable
      return ⟨← xs.mapM cString, env⟩
  | .str s => do
      let env ← env.mapM cVariable
      return ⟨[← cString (.str s)], env⟩
  | _ => .error .typeError

/-- The child `execute` starts for a lease. -/
def launch (h : Host) (restore : Json → Except PyError Unit) (lease : Json) :
    Except PyError Child := do
  let env ← environment h restore lease
  popen (← item "command" (← item "definition" (← item "job" lease))) env

/-! ## The child of a lease -/

section Launch

variable (h : Host) (l : Lease)

/-- The variables set for a lease. -/
def leaseSettings : List (String × String) :=
  [("RUNGRID_JOB_ID", l.job.id.text), ("RUNGRID_ATTEMPT_ID", l.attemptID.text),
    ("RUNGRID_ATTEMPT_NUMBER", decimal l.attemptNumber), ("RUNGRID_OUTPUT_DIR", h.outputs),
    ("RUNGRID_CHECKPOINT_DIR", h.checkpoints), ("PYTHONUNBUFFERED", "1")]

/-- The environment of the child, given the entries of the definition's. -/
def childEnv (entries : List (String × String)) : List (String × String) :=
  let env := Dict.pop (Dict.update (Dict.update h.environ entries) (leaseSettings h l))
    "RUNGRID_CHECKPOINT_PATH"
  if l.checkpoint.isSome then Dict.set env "RUNGRID_CHECKPOINT_PATH" h.restored else env

variable {h l} {restore : Json → Except PyError Unit}

/-- A lease whose definition has a nil environment: the right operand of `|` is `None`. -/
theorem environment_nil (hnil : l.job.definition.environment = none) :
    environment h restore l.toJson = .error .typeError := by
  have hjob : item "job" l.toJson = .ok l.job.toJson := rfl
  have hdefinition : item "definition" l.job.toJson = .ok l.job.definition.toJson := rfl
  have henv : getDefault "environment" (.obj []) l.job.definition.toJson
      = .ok (GoMap.toJson l.job.definition.environment) := rfl
  rw [hnil] at henv
  simp only [environment, hjob, hdefinition, henv, bind, Except.bind, GoMap.toJson, union]

/-- The dictionary built for a lease whose checkpoint, if any, can be restored. -/
theorem environment_some {m : GoMap} (hm : l.job.definition.environment = some m)
    (hrestore : ∀ a, l.checkpoint = some a → restore a.toJson = .ok ()) :
    environment h restore l.toJson
      = .ok ((childEnv h l m.entries).map (Prod.map id Json.str)) := by
  have hjob : item "job" l.toJson = .ok l.job.toJson := rfl
  have hdefinition : item "definition" l.job.toJson = .ok l.job.definition.toJson := rfl
  have henv : getDefault "environment" (.obj []) l.job.definition.toJson
      = .ok (GoMap.toJson l.job.definition.environment) := rfl
  have hid : item "id" l.job.toJson = .ok (.str l.job.id.text) := rfl
  have hattempt : item "attempt_id" l.toJson = .ok (.str l.attemptID.text) := rfl
  have hnumber : item "attempt_number" l.toJson = .ok (.int l.attemptNumber) := rfl
  have hsettings : settings h (.str l.job.id.text) (.str l.attemptID.text) (.int l.attemptNumber)
      = (leaseSettings h l).map (Prod.map id Json.str) := rfl
  have hunion : union h.environ (GoMap.toJson (some m))
      = .ok ((Dict.update h.environ m.entries).map (Prod.map id Json.str)) := by
    rw [← Dict.update_map]
    rfl
  rw [hm] at henv
  cases hc : l.checkpoint with
  | none =>
      have hget : getDefault "checkpoint" .null l.toJson = .ok .null := by
        simp [getDefault, Lease.toJson, hc, Dict.get, Table.find]
      simp only [environment, hjob, hdefinition, henv, hunion, hid, hattempt, hnumber, hget,
        hsettings, bind, Except.bind, Dict.update_map, Dict.pop_map, truthy, pure, Except.pure]
      simp [childEnv, hc]
  | some a =>
      have hget : getDefault "checkpoint" .null l.toJson = .ok a.toJson := by
        simp [getDefault, Lease.toJson, hc, Dict.get, Table.find]
      have hitem : item "checkpoint" l.toJson = .ok a.toJson := by
        simp [item, Lease.toJson, hc, Dict.get, Table.find]
      have htruthy : truthy a.toJson = true := rfl
      simp only [environment, hjob, hdefinition, henv, hunion, hid, hattempt, hnumber, hget, hitem,
        hsettings, bind, Except.bind, Dict.update_map, Dict.pop_map, htruthy, hrestore a hc, pure,
        Except.pure, reduceIte, Dict.set_map]
      simp [childEnv, hc]

/-- A variable `Popen` accepts. -/
def VariableOk (e : String × String) : Prop :=
  '=' ∉ e.1.toList ∧ Text.hasNul e.1 = false ∧ Text.hasNul e.2 = false

theorem mapM_cString {xs : List String} (hxs : xs.any Text.hasNul = false) :
    (xs.map Json.str).mapM cString = .ok xs := by
  induction xs with
  | nil => rfl
  | cons x xs ih =>
      rw [List.any_cons, Bool.or_eq_false_iff] at hxs
      rw [List.map_cons, List.mapM_cons, ih hxs.2]
      simp [cString, hxs.1, bind, Except.bind, pure, Except.pure]

theorem mapM_cVariable {es : List (String × String)} (hes : ∀ e ∈ es, VariableOk e) :
    (es.map (Prod.map id Json.str)).mapM cVariable = .ok es := by
  induction es with
  | nil => rfl
  | cons e es ih =>
      obtain ⟨⟨heq, hkey, hvalue⟩, hes⟩ := List.forall_mem_cons.mp hes
      rw [List.map_cons, List.mapM_cons, ih hes]
      simp [cVariable, cString, heq, hkey, hvalue, bind, Except.bind, pure, Except.pure]

theorem popen_ok {args : List String} {env : List (String × String)} (hargs : args ≠ [])
    (hnul : args.any Text.hasNul = false) (henv : ∀ e ∈ env, VariableOk e) :
    popen (.arr (args.map Json.str)) (env.map (Prod.map id Json.str)) = .ok ⟨args, env⟩ := by
  obtain ⟨a, as, rfl⟩ := List.exists_cons_of_ne_nil hargs
  have hmap := mapM_cString hnul
  rw [List.map_cons] at hmap ⊢
  simp only [popen, mapM_cVariable henv, hmap, bind, Except.bind, pure, Except.pure]

/-! ### The variables of the child -/

theorem envKey_ok {k : String} (hk : Job.envKey k = true) : k ≠ "" ∧ '=' ∉ k.toList := by
  unfold Job.envKey at hk
  split at hk
  · cases hk
  · rename_i c cs hlist
    simp only [Bool.and_eq_true, List.all_eq_true] at hk
    refine ⟨fun hempty => ?_, fun hmem => ?_⟩
    · rw [hempty] at hlist
      cases hlist
    · rw [hlist] at hmem
      rcases List.mem_cons.mp hmem with rfl | hmem
      · exact absurd hk.1 (by decide)
      · exact absurd (hk.2 _ hmem) (by decide)

/-- The entries of a validated environment. -/
theorem entries_ok {es : List (String × String)} (hes : Job.environmentError es = none) :
    ∀ e ∈ es, VariableOk e := by
  intro e he
  obtain ⟨hkey, hvalue, -⟩ := Job.environmentError_none hes e he
  exact ⟨(envKey_ok hkey).2, Job.envKey_hasNul hkey, hvalue⟩

theorem uuid_hasNul (u : Uuid) : Text.hasNul u.text = false := by
  rw [Text.hasNul, List.contains_eq_mem, decide_eq_false_iff_not]
  intro hmem
  rcases (Uuid.fits_chars (Uuid.idPattern_text u)).2 _ hmem with hx | hx
  · exact absurd hx (by decide)
  · exact absurd hx (by decide)

theorem decimal_hasNul (n : Int) : Text.hasNul (decimal n) = false := by
  rw [Text.hasNul, List.contains_eq_mem, decide_eq_false_iff_not, decimal, String.toList_ofList,
    Json.renderInt]
  have hdigits : Text.nul ∉ Nat.toDigits 10 n.natAbs := fun hmem =>
    absurd (Nat.isDigit_of_mem_toDigits (by decide) (by decide) hmem) (by decide)
  split
  · rw [List.mem_cons, not_or]
    exact ⟨by decide, hdigits⟩
  · exact hdigits

theorem leaseSettings_ok : ∀ e ∈ leaseSettings h l, VariableOk e := by
  have hdir := h.directory_ok
  simp only [leaseSettings, List.forall_mem_cons, VariableOk]
  refine ⟨⟨by decide, by decide, uuid_hasNul _⟩, ⟨by decide, by decide, uuid_hasNul _⟩,
    ⟨by decide, by decide, decimal_hasNul _⟩, ⟨by decide, by decide, ?_⟩,
    ⟨by decide, by decide, ?_⟩, ⟨by decide, by decide, by decide⟩, by simp⟩
  · rw [Host.outputs, Text.hasNul_append, hdir]
    decide
  · rw [Host.checkpoints, Text.hasNul_append, hdir]
    decide

theorem childEnv_ok {es : List (String × String)} (hes : Job.environmentError es = none) :
    ∀ e ∈ childEnv h l es, VariableOk e := by
  have hpop : ∀ e ∈ Dict.pop (Dict.update (Dict.update h.environ es) (leaseSettings h l))
      "RUNGRID_CHECKPOINT_PATH", VariableOk e := by
    intro e he
    rcases Dict.mem_update (List.mem_of_mem_filter he) with he | he
    · rcases Dict.mem_update he with he | he
      · exact h.environ_ok e he
      · exact entries_ok hes e he
    · exact leaseSettings_ok e he
  intro e he
  unfold childEnv at he
  split at he
  · rcases Dict.mem_set he with rfl | he
    · have hname : '=' ∉ "RUNGRID_CHECKPOINT_PATH".toList ∧
          Text.hasNul "RUNGRID_CHECKPOINT_PATH" = false := by decide
      refine ⟨hname.1, hname.2, ?_⟩
      rw [Host.restored, Text.hasNul_append, h.directory_ok]
      decide
    · exact hpop e he
  · exact hpop e he

/-- The value of a variable of the child other than the path of the checkpoint. -/
theorem get_childEnv {es : List (String × String)} {k : String} (hk : k ≠ "RUNGRID_CHECKPOINT_PATH") :
    Dict.get k (childEnv h l es)
      = Dict.get k (Dict.update (Dict.update h.environ es) (leaseSettings h l)) := by
  unfold childEnv
  split
  · rw [Dict.get_set, if_neg (Ne.symm hk), Dict.get_pop, if_neg (Ne.symm hk)]
  · rw [Dict.get_pop, if_neg (Ne.symm hk)]

theorem leaseSettings_keyed : Table.Keyed Prod.fst (leaseSettings h l) := by
  simp only [Table.Keyed, leaseSettings, List.map_cons, List.map_nil]
  decide

theorem get_childEnv_setting {es : List (String × String)} {e : String × String}
    (he : e ∈ leaseSettings h l) : Dict.get e.1 (childEnv h l es) = some e.2 := by
  have hne : ∀ e ∈ leaseSettings h l, e.1 ≠ "RUNGRID_CHECKPOINT_PATH" := by
    simp only [leaseSettings, List.forall_mem_cons]
    exact ⟨by decide, by decide, by decide, by decide, by decide, by decide, by simp⟩
  rw [get_childEnv (hne e he)]
  exact Dict.get_update_of_mem leaseSettings_keyed he

theorem get_childEnv_path (es : List (String × String)) :
    Dict.get "RUNGRID_CHECKPOINT_PATH" (childEnv h l es)
      = if l.checkpoint.isSome then some h.restored else none := by
  unfold childEnv
  split
  · rw [Dict.get_set, if_pos rfl]
  · rw [Dict.get_pop, if_pos rfl]

/-- A submitted variable is overridden only by `PYTHONUNBUFFERED`. -/
theorem get_childEnv_submitted {m : GoMap} (hes : Job.environmentError m.entries = none)
    {e : String × String} (he : e ∈ m.entries) (hne : e.1 ≠ "PYTHONUNBUFFERED") :
    Dict.get e.1 (childEnv h l m.entries) = some e.2 := by
  obtain ⟨-, -, hreserved⟩ := Job.environmentError_none hes e he
  have hkey : ∀ k : String, Text.startsWith k "RUNGRID_" = true → k ≠ e.1 := by
    rintro k hk rfl
    rw [hreserved] at hk
    cases hk
  have hother : ∀ s ∈ leaseSettings h l, s.1 ≠ e.1 := by
    simp only [leaseSettings, List.forall_mem_cons]
    exact ⟨hkey _ (by decide), hkey _ (by decide), hkey _ (by decide), hkey _ (by decide),
      hkey _ (by decide), Ne.symm hne, by simp⟩
  have hkeyed : Table.Keyed Prod.fst m.entries := by
    refine List.pairwise_map.mpr (m.sorted.imp ?_)
    intro a b hlt heq
    exact String.lt_irrefl a.1 (heq ▸ hlt)
  rw [get_childEnv (Ne.symm (hkey _ (by decide))), Dict.get_update_of_forall_ne hother]
  exact Dict.get_update_of_mem hkeyed he

end Launch

/-! ## Starting with a checkpoint -/

section Restore

variable [Hashlib]

/-- `restore`: the bytes of the target file. `download` is what the object store
returns for a key, if it returns. -/
def restore (download : String → Option (List UInt8)) (artifact : Json) :
    Except PyError (List UInt8) := do
  let key ← item "object_key" artifact
  let checksum ← item "checksum" artifact
  match key, checksum with
  | .str key, .str checksum => match download key with
    | none => .error .runtimeError
    | some content => if digest content ≠ checksum then .error .valueError else .ok content
  | _, _ => .error .typeError

/-- The child `execute` starts with what the object store returns. -/
def start (h : Host) (download : String → Option (List UInt8)) (lease : Json) :
    Except PyError Child :=
  launch h (fun artifact => (restore download artifact).map (fun _ => ())) lease

/-- The bytes of `resume.json`, if `execute` writes the file. -/
def resumeFile (download : String → Option (List UInt8)) (lease : Json) : Option (List UInt8) :=
  match getDefault "checkpoint" .null lease with
  | .ok artifact => if truthy artifact then (restore download artifact).toOption else none
  | .error _ => none

variable {h : Host} {l : Lease} {download : String → Option (List UInt8)} {child : Child}

/-- A file is restored only if its digest is the checksum of the entry. -/
theorem restore_ok {a : Artifact} {content : List UInt8} :
    restore download a.toJson = .ok content ↔
      download a.objectKey = some content ∧ digest content = a.checksum := by
  have hkey : item "object_key" a.toJson = .ok (.str a.objectKey) := rfl
  have hsum : item "checksum" a.toJson = .ok (.str a.checksum) := rfl
  simp only [restore, hkey, hsum, bind, Except.bind]
  cases download a.objectKey with
  | none => simp
  | some content' =>
      by_cases hd : digest content' = a.checksum
      · simp only [hd, ne_eq, not_true_eq_false, reduceIte, Except.ok.injEq, Option.some.injEq]
        exact ⟨fun heq => ⟨heq, heq ▸ hd⟩, fun heq => heq.1⟩
      · simp only [hd, ne_eq, not_false_eq_true, reduceIte, reduceCtorEq, Option.some.injEq, false_iff,
          not_and]
        rintro rfl
        exact hd

omit [Hashlib] in
theorem bind_ok {α β : Type} {x : Except PyError α} {f : α → Except PyError β} {b : β}
    (hb : (x >>= f) = .ok b) : ∃ a, x = .ok a ∧ f a = .ok b := by
  cases x with
  | error e => cases hb
  | ok a => exact ⟨a, rfl, hb⟩

omit [Hashlib] in
theorem cVariable_inv {e : String × Json} {v : String × String} (hv : cVariable e = .ok v) :
    e = (v.1, .str v.2) := by
  obtain ⟨k, value⟩ := e
  unfold cVariable at hv
  split at hv
  · cases hv
  · obtain ⟨s, hs, hv⟩ := bind_ok hv
    cases hv
    unfold cString at hs
    split at hs
    · rename_i hvalue
      split at hs
      · cases hs
      · cases hs
        exact Prod.ext rfl hvalue
    · cases hs

omit [Hashlib] in
theorem mapM_cVariable_inv {env : List (String × Json)} {es : List (String × String)}
    (hes : env.mapM cVariable = .ok es) : env = es.map (Prod.map id Json.str) := by
  induction env generalizing es with
  | nil =>
      cases hes
      rfl
  | cons e env ih =>
      rw [List.mapM_cons] at hes
      obtain ⟨v, hv, hes⟩ := bind_ok hes
      obtain ⟨vs, hvs, hes⟩ := bind_ok hes
      cases hes
      rw [cVariable_inv hv, ih hvs]
      rfl

omit [Hashlib] in
theorem popen_env {command : Json} {env : List (String × Json)} (hchild : popen command env = .ok child) :
    env = child.env.map (Prod.map id Json.str) := by
  unfold popen at hchild
  split at hchild
  · cases hchild
  · obtain ⟨vars, hvars, hchild⟩ := bind_ok hchild
    obtain ⟨args, -, hchild⟩ := bind_ok hchild
    cases hchild
    exact mapM_cVariable_inv hvars
  · obtain ⟨vars, hvars, hchild⟩ := bind_ok hchild
    obtain ⟨arg, -, hchild⟩ := bind_ok hchild
    cases hchild
    exact mapM_cVariable_inv hvars
  · cases hchild

omit [Hashlib] in
/-- A child is started with the environment that was built. -/
theorem launch_env {restore : Json → Except PyError Unit} {lease : Json}
    (hchild : launch h restore lease = .ok child) :
    environment h restore lease = .ok (child.env.map (Prod.map id Json.str)) := by
  obtain ⟨env, henv, hchild⟩ := bind_ok hchild
  obtain ⟨_, -, hchild⟩ := bind_ok hchild
  obtain ⟨_, -, hchild⟩ := bind_ok hchild
  obtain ⟨_, -, hchild⟩ := bind_ok hchild
  rw [henv, popen_env hchild]

omit [Hashlib] in
/-- If the checkpoint of a lease cannot be restored, there is no environment. -/
theorem environment_unrestored {restore : Json → Except PyError Unit} {a : Artifact} {e : PyError}
    (hc : l.checkpoint = some a) (hrestore : restore a.toJson = .error e) :
    ∀ env, environment h restore l.toJson ≠ .ok env := by
  intro env henv
  have hget : getDefault "checkpoint" .null l.toJson = .ok a.toJson := by
    simp [getDefault, Lease.toJson, hc, Dict.get, Table.find]
  have hitem : item "checkpoint" l.toJson = .ok a.toJson := by
    simp [item, Lease.toJson, hc, Dict.get, Table.find]
  have htruthy : truthy a.toJson = true := rfl
  obtain ⟨_, -, henv⟩ := bind_ok henv
  obtain ⟨_, -, henv⟩ := bind_ok henv
  obtain ⟨_, -, henv⟩ := bind_ok henv
  obtain ⟨_, -, henv⟩ := bind_ok henv
  obtain ⟨_, -, henv⟩ := bind_ok henv
  obtain ⟨_, -, henv⟩ := bind_ok henv
  obtain ⟨_, -, henv⟩ := bind_ok henv
  simp [hget, hitem, htruthy, hrestore, bind, Except.bind] at henv

omit [Hashlib] in
/-- The environment of a child that was started for a lease. -/
theorem launch_childEnv {restore : Json → Except PyError Unit}
    (hchild : launch h restore l.toJson = .ok child) :
    (∀ a, l.checkpoint = some a → restore a.toJson = .ok ()) ∧
      ∃ m, l.job.definition.environment = some m ∧ child.env = childEnv h l m.entries := by
  have henv := launch_env hchild
  have hrestore : ∀ a, l.checkpoint = some a → restore a.toJson = .ok () := by
    intro a hc
    cases hr : restore a.toJson with
    | ok u => rfl
    | error e => exact absurd henv (environment_unrestored hc hr _)
  refine ⟨hrestore, ?_⟩
  cases hm : l.job.definition.environment with
  | none =>
      rw [environment_nil hm] at henv
      cases henv
  | some m =>
      rw [environment_some hm hrestore] at henv
      have hinj : Function.Injective (Prod.map id Json.str : String × String → String × Json) :=
        Function.injective_id.prodMap (fun _ _ heq => Json.str.inj heq)
      exact ⟨m, rfl, (List.map_injective_iff.mpr hinj (Except.ok.inj henv)).symm⟩

/-- A child of a lease with a checkpoint finds in `resume.json` bytes with the digest of
the checkpoint, and they are what the object store returned. -/
theorem start_checkpoint {a : Artifact} (hchild : start h download l.toJson = .ok child)
    (hc : l.checkpoint = some a) :
    Dict.get "RUNGRID_CHECKPOINT_PATH" child.env = some h.restored ∧
      ∃ content, resumeFile download l.toJson = some content ∧
        download a.objectKey = some content ∧ digest content = a.checksum := by
  obtain ⟨hrestore, m, -, henv⟩ := launch_childEnv hchild
  refine ⟨by rw [henv, get_childEnv_path, hc]; rfl, ?_⟩
  have hget : getDefault "checkpoint" .null l.toJson = .ok a.toJson := by
    simp [getDefault, Lease.toJson, hc, Dict.get, Table.find]
  have hr := hrestore a hc
  cases hcontent : restore download a.toJson with
  | error e =>
      rw [hcontent] at hr
      cases hr
  | ok content =>
      refine ⟨content, ?_, restore_ok.mp hcontent⟩
      have htruthy : truthy a.toJson = true := rfl
      simp [resumeFile, hget, htruthy, hcontent, Except.toOption]

/-- A child of a lease without a checkpoint has no path to one. -/
theorem start_without_checkpoint (hchild : start h download l.toJson = .ok child)
    (hc : l.checkpoint = none) : Dict.get "RUNGRID_CHECKPOINT_PATH" child.env = none := by
  obtain ⟨-, m, -, henv⟩ := launch_childEnv hchild
  rw [henv, get_childEnv_path, hc]
  rfl

end Restore

/-! ## Starting an accepted job -/

/-- What the child of a lease is to be: the submitted command, and an environment that
names the attempt and keeps the submitted variables. -/
structure Child.Faithful (child : Child) (h : Host) (l : Lease) : Prop where
  args : child.args = l.job.definition.command.elems
  strings : child.args.any Text.hasNul = false ∧ ∀ e ∈ child.env, VariableOk e
  jobID : Dict.get "RUNGRID_JOB_ID" child.env = some l.job.id.text
  attemptID : Dict.get "RUNGRID_ATTEMPT_ID" child.env = some l.attemptID.text
  attemptNumber : Dict.get "RUNGRID_ATTEMPT_NUMBER" child.env = some (decimal l.attemptNumber)
  checkpoint : (Dict.get "RUNGRID_CHECKPOINT_PATH" child.env).isSome = l.checkpoint.isSome
  submitted : ∀ e ∈ (l.job.definition.environment.map GoMap.entries).getD [], e.1 ≠ "" ∧
    (e.1 ≠ "PYTHONUNBUFFERED" → Dict.get e.1 child.env = some e.2)

variable {h : Host} {l : Lease} {restore : Json → Except PyError Unit}

theorem launch_nil (hnil : l.job.definition.environment = none) :
    launch h restore l.toJson = .error .typeError := by
  simp only [launch, environment_nil hnil, bind, Except.bind]

theorem launch_some {m : GoMap} (hvalid : l.job.definition.Valid)
    (hm : l.job.definition.environment = some m)
    (hrestore : ∀ a, l.checkpoint = some a → restore a.toJson = .ok ()) :
    launch h restore l.toJson
      = .ok ⟨l.job.definition.command.elems, childEnv h l m.entries⟩ := by
  obtain ⟨⟨hnonempty, -⟩, hnul, henv, -⟩ := hvalid.texts
  rw [hm] at henv
  have hjob : item "job" l.toJson = .ok l.job.toJson := rfl
  have hdefinition : item "definition" l.job.toJson = .ok l.job.definition.toJson := rfl
  have hcommand : item "command" l.job.definition.toJson
      = .ok (.arr (l.job.definition.command.elems.map Json.str)) := by
    cases hc : l.job.definition.command with
    | none =>
        rw [hc] at hnonempty
        exact absurd rfl hnonempty
    | some xs =>
        have hitem : item "command" l.job.definition.toJson
            = .ok (l.job.definition.command.toJson .str) := rfl
        rw [hitem, hc]
        rfl
  simp only [launch, environment_some hm hrestore, hjob, hdefinition, hcommand, bind, Except.bind]
  exact popen_ok hnonempty hnul (childEnv_ok henv)

theorem childEnv_faithful {m : GoMap} (hvalid : l.job.definition.Valid)
    (hm : l.job.definition.environment = some m) :
    (Child.mk l.job.definition.command.elems (childEnv h l m.entries)).Faithful h l := by
  obtain ⟨-, hnul, henv, -⟩ := hvalid.texts
  rw [hm] at henv
  refine ⟨rfl, ⟨hnul, childEnv_ok henv⟩, ?_, ?_, ?_, ?_, ?_⟩
  · exact get_childEnv_setting (e := ("RUNGRID_JOB_ID", l.job.id.text)) (by simp [leaseSettings])
  · exact get_childEnv_setting (e := ("RUNGRID_ATTEMPT_ID", l.attemptID.text)) (by simp [leaseSettings])
  · exact get_childEnv_setting (e := ("RUNGRID_ATTEMPT_NUMBER", decimal l.attemptNumber)) (by simp [leaseSettings])
  · rw [get_childEnv_path]
    cases l.checkpoint <;> rfl
  · intro e he
    rw [hm] at he
    exact ⟨(envKey_ok (Job.environmentError_none henv e he).1).1,
      get_childEnv_submitted henv he⟩

end Worker

/-- The worker can build the child of an accepted job exactly if the submitted body has
an environment that is not null, and then the child is the submitted one. -/
theorem accepted_job_starts_iff (body : Json) (j : Job) (hdecode : Decode.decode body = some j)
    (hvalid : j.Valid) (l : Lease) (hl : l.job.definition = j) (h : Worker.Host)
    (restore : Json → Except Worker.PyError Unit)
    (hrestore : ∀ a, l.checkpoint = some a → restore a.toJson = .ok ()) :
    (∃ child, Worker.launch h restore l.toJson = .ok child ∧ child.Faithful h l) ↔
      Decode.HasEnvironment body := by
  subst hl
  rw [← Decode.decode_environment hdecode]
  cases hm : l.job.definition.environment with
  | none => simp [Worker.launch_nil hm]
  | some m =>
      simp only [Option.isSome_some, iff_true]
      exact ⟨_, Worker.launch_some hvalid hm hrestore, Worker.childEnv_faithful hvalid hm⟩

namespace Sample

/-- A worker without variables of its own. -/
def host : Worker.Host := ⟨[], "/tmp/rungrid", by simp, by decide⟩

/-- The body of a submission of `job`, with the given members after the command. -/
def body (members : List (String × Json)) : Json :=
  .obj ([("name", .str "n"), ("command", .arr [.str "true"])] ++ members ++
    [("resources", .obj [("cpu", .int 1), ("memory_mb", .int 64)]), ("max_attempts", .int 3),
      ("timeout_seconds", .int 30), ("idempotency_key", .str "k")])

/-- The lease of a job that was submitted with a variable. -/
def variableLease : Lease :=
  { lease with job := { lease.job with definition := { job with
    environment := some ⟨[("SEED", "7")], by decide⟩ } } }

end Sample

theorem accepted_job_starts_sample :
    ∃ child, Worker.launch Sample.host (fun _ => .ok ()) Sample.variableLease.toJson = .ok child ∧
      child.Faithful Sample.host Sample.variableLease :=
  (accepted_job_starts_iff (Sample.body [("environment", .obj [("SEED", .str "7")])]) _
    (by decide +kernel) (by decide +kernel) Sample.variableLease rfl Sample.host (fun _ => .ok ())
    (fun _ _ => rfl)).mpr ⟨[("SEED", .str "7")], rfl⟩

/-- A body without an environment is accepted, the server leases the job, and the worker
raises a `TypeError` instead of starting the command. -/
theorem job_without_environment_not_started :
    Decode.decode (Sample.body []) = some Sample.job ∧
      (@perform Sample.digest Sample.submitCall Db.empty).1
        = .ok (.rows [{ Sample.lease.job with state := .queued }]) ∧
      (@perform Sample.digest Sample.leaseCall (@exec Sample.digest
        [Sample.submitCall, Sample.registerCall] Db.empty)).1 = .ok (.response (.lease Sample.lease)) ∧
      Worker.launch Sample.host (fun _ => .ok ()) Sample.lease.toJson = .error .typeError := by
  decide +kernel

end Rungrid
