-- SUMMARY: What a call of the store does: its changes, its receipt, and the invariant rule for runs.
import Rungrid.Lifecycle.Soundness
import Rungrid.Store.System

/-!
# Calls

`Outcome` lists what a successful call can do. A submission or a tick of the
reaper makes changes and no receipt. A mutation replays a stored receipt and
changes nothing, or it makes its changes and stores the receipt of its response.
`perform_outcome` shows that the programs of the store do nothing else, and
`Reachable.inv` is the rule by which invariants of the tables are proved.
-/

namespace Rungrid

open Prog

/-! ## Receipts -/

/-- The receipts of a committed state: one for a key, and each with a response. -/
structure Db.Receipts (db : Db) : Prop where
  keyed : Table.Keyed RequestRec.key db.requests
  answered : ∀ r ∈ db.requests, r.response.isSome

theorem Db.receipts_empty : Db.empty.Receipts := by
  constructor <;> simp [Db.empty, Table.Keyed]

theorem Effect.requests {P : Oracle → Prop} {s : Store} {db db' : Db} {c : Change}
    (h : Effect P s db c db') : db'.requests = db.requests := by
  cases h <;> rfl

theorem Changes.requests {P : Oracle → Prop} {s : Store} {db db' : Db} {cs : List Change}
    (h : Changes P s db cs db') : db'.requests = db.requests := by
  induction h with
  | nil => rfl
  | cons he _ ih => exact ih.trans he.requests

/-- A new receipt. -/
theorem Db.Receipts.append {db db' : Db} {row : RequestRec} (h : db.Receipts)
    (hadd : db'.requests = db.requests ++ [row])
    (hnew : db.request? row.scope row.requestID = none) (hans : row.response.isSome) :
    db'.Receipts where
  keyed := hadd ▸ h.keyed.append hnew
  answered r hr := by
    rw [hadd] at hr
    rcases List.mem_append.mp hr with hr | hr
    · exact h.answered r hr
    · rw [List.mem_singleton.mp hr]; exact hans

section Mutate

variable {P : Oracle → Prop} {s : Store} {db db' : Db}

/-- The receipt just added is the one found. -/
theorem Db.request?_append {row : RequestRec}
    (h : db.request? row.scope row.requestID = none) :
    (db.withRequests (db.requests ++ [row])).request? row.scope row.requestID = some row :=
  Table.find_append_self h

/-- Answering the receipt just added. -/
theorem Db.Receipts.put_append {row answered : RequestRec} (h : db.Receipts)
    (hnew : db.request? row.scope row.requestID = none) (hkey : row.key = answered.key) :
    Table.put RequestRec.key answered (db.requests ++ [row]) = db.requests ++ [answered] :=
  Table.put_concat (h.keyed.append hnew) hkey

theorem runs_insertRequest {α : Type} {scope id hash : String} {f : Unit → Prog α} {b : α}
    (h : Runs P (sql (.insertRequest scope id hash) >>= f) db b db') :
    (∃ row, db.request? scope id = some row ∧ Runs P (f ()) db b db') ∨
      ∃ o, P o ∧ db.request? scope id = none ∧ Runs P (f ())
        (db.withRequests (db.requests ++ [⟨scope, id, hash, none, o.clock 0⟩])) b db' := by
  obtain ⟨o, r, ws, ho, he, hk⟩ := runs_sql_bind.mp h
  simp only [Stmt.eval] at he
  split at he
  · cases he
  split at he
  · rename_i hrow
    cases he
    obtain ⟨row, hrow⟩ := Option.isSome_iff_exists.mp hrow
    exact .inl ⟨row, hrow, hk⟩
  · rename_i hrow
    cases he
    exact .inr ⟨o, ho, by simpa using hrow, hk⟩

variable [Sha256]

/-- A successful mutation replays the receipt of its key, or there is none and
it runs its body, which leaves the receipts alone, and adds one. -/
theorem mutate_body {scope id : String} {payload : Json} {fn : Prog Response} {res : Response}
    (hwf : db.WF) (hrec : db.Receipts)
    (hfn : ∀ {d m : Db}, d.WF → Runs P fn d res m → m.requests = d.requests)
    (h : Runs P (Store.mutate scope id payload fn) db res db') :
    (∃ row, db.request? scope id = some row ∧ row.payloadHash = Sha256.hex payload.marshal ∧
      row.response = some res ∧ db' = db) ∨
    (db.request? scope id = none ∧ ∃ o rs mid, P o ∧ Runs P fn (db.withRequests rs) res mid ∧
      db' = mid.withRequests (db.requests ++
        [⟨scope, id, Sha256.hex payload.marshal, some res, o.clock 0⟩])) := by
  unfold Store.mutate at h
  split at h
  · exact absurd h not_runs_fail
  rcases runs_insertRequest h with ⟨row, hrow, h⟩ | ⟨o, ho, hnone, h⟩
  · obtain ⟨_, _, h⟩ := runs_read (fun _ => rfl) h
    simp only [reread_self, hrow, Option.map_some] at h
    split at h
    · exact absurd h not_runs_fail
    · rename_i hhash
      obtain ⟨res', hres'⟩ := Option.isSome_iff_exists.mp
        (hrec.answered row (Table.mem_of_find hrow))
      rw [hres'] at h
      obtain ⟨rfl, rfl⟩ := runs_done.mp h
      exact .inl ⟨row, hrow, not_not.mp hhash, hres', rfl⟩
  · right
    refine ⟨hnone, ?_⟩
    obtain ⟨_, _, h⟩ := runs_read (fun _ => rfl) h
    -- The row just inserted is the one that is locked and, after the body, updated.
    have hfound : (db.withRequests (db.requests ++
        [⟨scope, id, Sha256.hex payload.marshal, none, o.clock 0⟩])).request? scope id
        = some ⟨scope, id, Sha256.hex payload.marshal, none, o.clock 0⟩ :=
      Db.request?_append hnone
    simp only [reread_self, hfound, Option.map_some, ne_eq, not_true_eq_false, ↓reduceIte] at h
    obtain ⟨res', mid, hbody, h⟩ := runs_bind.mp h
    obtain ⟨os, hos, h⟩ := runs_total (fun _ => rfl) h
    obtain ⟨rfl, hdb'⟩ := runs_done.mp h
    have hreq := hfn (hwf.withRequests _) hbody
    have hmid : mid.request? scope id
        = some ⟨scope, id, Sha256.hex payload.marshal, none, o.clock 0⟩ := by
      rw [Db.request?, hreq]
      exact hfound
    refine ⟨o, _, mid, ho, hbody, ?_⟩
    rw [hdb']
    simp only [reread_self, hmid, updateRow_some, Db.applyAll_cons, Db.applyAll_nil, Db.apply, hreq]
    exact congrArg mid.withRequests (hrec.put_append hnone rfl)

/-- The changes of a successful mutation. `Q` is what is known of those of the body. -/
theorem mutate_runs {scope id : String} {payload : Json} {fn : Prog Response} {res : Response}
    {Q : Db → List Change → Prop} (hwf : db.WF) (hrec : db.Receipts)
    (hfn : ∀ {d m : Db}, d.WF → Runs P fn d res m → ∃ cs, Changes P s d cs m ∧ Q d cs)
    (h : Runs P (Store.mutate scope id payload fn) db res db') :
    (∃ row, db.request? scope id = some row ∧ row.payloadHash = Sha256.hex payload.marshal ∧
      row.response = some res ∧ db' = db) ∨
    (db.request? scope id = none ∧ ∃ o rs cs mid, P o ∧ Q (db.withRequests rs) cs ∧
      Changes P s db cs mid ∧ db' = mid.withRequests (db.requests ++
        [⟨scope, id, Sha256.hex payload.marshal, some res, o.clock 0⟩])) := by
  have hkeep : ∀ {d m : Db}, d.WF → Runs P fn d res m → m.requests = d.requests := by
    intro d m hd hbody
    obtain ⟨cs, hcs, -⟩ := hfn hd hbody
    exact hcs.requests
  rcases mutate_body hwf hrec hkeep h with hreplay | ⟨hnone, o, rs, mid, ho, hbody, rfl⟩
  · exact .inl hreplay
  · obtain ⟨cs, hcs, hQ⟩ := hfn (hwf.withRequests _) hbody
    exact .inr ⟨hnone, o, rs, cs, _, ho, hQ, hcs.withRequests db.requests, rfl⟩

end Mutate

/-! ## Calls -/

/-- The key of the receipt an operation leaves. -/
def Op.key : Op → Option (String × String)
  | .rpc m r => some (Store.rpcScope m r, r.requestID)
  | .action _ a requestID => some (Store.actionScope a, requestID)
  | .submit _ | .reap => none

/-- The payload whose digest the receipt keeps. -/
def Op.payload : Op → Json
  | .rpc _ r => r.toJson
  | .action id _ _ => .str id
  | .submit _ | .reap => .null

/-- The changes an operation can make in `db`. -/
def Op.Makes (P : Oracle → Prop) (db : Db) : Op → List Change → Prop
  | .submit _, cs => ∀ c ∈ cs, ∃ id, c = .submitted id
  | .reap, cs => ∀ c ∈ cs, ∃ job attempt, c = .expired job attempt
  | .action id a _, cs =>
      ∃ job, Uuid.parse id = some job ∧ (a = .cancel ∨ a = .retry) ∧ cs = [a.change job]
  | .rpc .registerWorker r, cs => cs = [] ∨ cs = [.registered r.workerID]
  | .rpc m r, cs => ∃ w cs', db.worker? r.workerID = some w ∧ w.sessionID = r.sessionID ∧
      cs = .touched r.workerID :: cs' ∧ Served P db r m cs'

section Calls

variable {P : Oracle → Prop} {s : Store} {db db' : Db}

private theorem rpcBody_runs {m : Method} {r : Request} {res : Response}
    (h : Runs P (s.rpcBody m r) db res db') :
    ∃ cs, Changes P s db cs db' ∧ (Op.rpc m r).Makes P db cs := by
  by_cases hm : m = .registerWorker
  · subst hm
    obtain ⟨cs, hcs, hmakes, -⟩ := registerBody_runs (s := s) h
    exact ⟨cs, hcs, hmakes⟩
  · have hbody : s.rpcBody m r = s.workerBody m r := by
      cases m <;> first | rfl | exact absurd rfl hm
    rw [hbody] at h
    obtain ⟨w, hw, hsession, cs, hcs, hserved⟩ := workerBody_runs h
    refine ⟨_, hcs, ?_⟩
    cases m <;> first | exact ⟨w, cs, hw, hsession, rfl, hserved⟩ | exact absurd rfl hm

theorem Op.Makes.withRequests {op : Op} {cs : List Change} {rs : List RequestRec}
    (h : op.Makes P (db.withRequests rs) cs) : op.Makes P db cs := by
  cases op with
  | submit jobs => exact h
  | reap => exact h
  | action id a requestID => exact h
  | rpc m r =>
      by_cases hm : m = .registerWorker
      · subst hm
        exact h
      · have hserved : ∀ {cs'}, Served P (db.withRequests rs) r m cs' → Served P db r m cs' := by
          rintro cs' (_ | _ | _ | hempty | ⟨hf, hmc⟩)
          · exact .idle
          · exact .leased
          · exact .released
          · exact .alive hempty
          · exact .attempt (hf.withRequests db.requests) hmc
        cases m <;> first
          | exact absurd rfl hm
          | (obtain ⟨w, cs', hw, hsession, rfl, hs⟩ := h
             exact ⟨w, cs', hw, hsession, rfl, hserved hs⟩)

/-- The states between calls. -/
structure Db.Sound (db : Db) : Prop where
  wf : db.WF
  receipts : db.Receipts

theorem Db.sound_empty : Db.empty.Sound := ⟨Db.wf_empty, Db.receipts_empty⟩

variable [Sha256]

def Op.hash (op : Op) : String := Sha256.hex op.payload.marshal

/-- What a successful call returns and leaves. -/
inductive Outcome (P : Oracle → Prop) (s : Store) (db : Db) (op : Op) : Result → Db → Prop where
  | changed {res : Result} {cs : List Change} {db' : Db} :
      op.key = none → op.Makes P db cs → Changes P s db cs db' → Outcome P s db op res db'
  | replayed {key : String × String} {row : RequestRec} {res : Response} :
      op.key = some key → db.request? key.1 key.2 = some row → row.payloadHash = op.hash →
      row.response = some res → Outcome P s db op (.response res) db
  | mutated {key : String × String} {res : Response} {cs : List Change} {mid : Db} {o : Oracle} :
      op.key = some key → db.request? key.1 key.2 = none → op.Makes P db cs →
      Changes P s db cs mid → P o →
      Outcome P s db op (.response res) (mid.withRequests
        (db.requests ++ [⟨key.1, key.2, op.hash, some res, o.clock 0⟩]))

/-- The programs of the store do nothing but what `Outcome` lists. -/
theorem prog_outcome {op : Op} {res : Result} (hwf : db.WF) (hrec : db.Receipts)
    (h : Runs P (op.prog s) db res db') : Outcome P s db op res db' := by
  cases op with
  | submit jobs =>
      obtain ⟨rows, mid, hrun, h⟩ := runs_bind.mp h
      obtain ⟨rfl, rfl⟩ := runs_done.mp h
      obtain ⟨cs, hcs, hmakes⟩ := submit_runs (s := s) hrun
      exact .changed rfl hmakes hcs
  | reap =>
      obtain ⟨n, mid, hrun, h⟩ := runs_bind.mp h
      obtain ⟨rfl, rfl⟩ := runs_done.mp h
      obtain ⟨cs, hcs, hmakes, -⟩ := reap_runs (s := s) hwf hrun
      exact .changed rfl hmakes hcs
  | rpc m r =>
      obtain ⟨response, mid, hrun, h⟩ := runs_bind.mp h
      obtain ⟨rfl, rfl⟩ := runs_done.mp h
      unfold Store.rpc at hrun
      split at hrun
      · exact absurd hrun not_runs_fail
      · rcases mutate_runs hwf hrec (fun _ hbody => rpcBody_runs hbody) hrun with
          ⟨row, hrow, hhash, hres, rfl⟩ | ⟨hnone, o, rs, cs, mid, ho, hmakes, hcs, rfl⟩
        · exact .replayed rfl hrow hhash hres
        · exact .mutated rfl hnone hmakes.withRequests hcs ho
  | action id a requestID =>
      obtain ⟨response, mid, hrun, h⟩ := runs_bind.mp h
      obtain ⟨rfl, rfl⟩ := runs_done.mp h
      have hbody : ∀ {d m : Db}, d.WF → Runs P (Store.actionBody id a requestID) d response m →
          ∃ cs, Changes P s d cs m ∧ (Op.action id a requestID).Makes P d cs := by
        intro d m hd hbody
        obtain ⟨job, hparse, ha, he⟩ := actionBody_runs (s := s) hd hbody
        exact ⟨_, .one he, job, hparse, ha, rfl⟩
      rcases mutate_runs hwf hrec hbody hrun with
        ⟨row, hrow, hhash, hres, rfl⟩ | ⟨hnone, o, rs, cs, mid, ho, hmakes, hcs, rfl⟩
      · exact .replayed rfl hrow hhash hres
      · exact .mutated rfl hnone hmakes.withRequests hcs ho

/-- An RPC that succeeds and has no receipt runs its body. -/
theorem perform_body {c : Call} {m : Method} {r : Request} {res : Result} (hop : c.op = .rpc m r)
    (hP : ∀ n, P (c.oracle n)) (hdb : db.Sound)
    (hfresh : db.request? (Store.rpcScope m r) r.requestID = none)
    (h : perform c db = (.ok res, db')) :
    ∃ response rs rs' mid, res = .response response ∧
      Runs P (c.server.rpcBody m r) (db.withRequests rs) response mid ∧ db' = mid.withRequests rs' := by
  have hrun := runs_of_run hP (perform_ok.mp h)
  rw [hop] at hrun
  obtain ⟨response, mid, hrpc, h⟩ := runs_bind.mp hrun
  obtain ⟨rfl, rfl⟩ := runs_done.mp h
  unfold Store.rpc at hrpc
  split at hrpc
  · exact absurd hrpc not_runs_fail
  · have hkeep : ∀ {d m' : Db}, d.WF → Runs P (c.server.rpcBody m r) d response m' →
        m'.requests = d.requests := by
      intro d m' _ hbody
      obtain ⟨cs, hcs, -⟩ := rpcBody_runs hbody
      exact hcs.requests
    rcases mutate_body hdb.wf hdb.receipts hkeep hrpc with
      ⟨row, hrow, -⟩ | ⟨-, o, rs, mid, -, hbody, rfl⟩
    · rw [hfresh] at hrow
      cases hrow
    · exact ⟨response, rs, _, mid, rfl, hbody, rfl⟩

theorem perform_outcome {c : Call} {res : Result} (hP : ∀ n, P (c.oracle n)) (hwf : db.WF)
    (hrec : db.Receipts) (h : perform c db = (.ok res, db')) :
    Outcome P c.server db c.op res db' :=
  prog_outcome hwf hrec (runs_of_run hP (perform_ok.mp h))

/-! ## Invariants of runs -/

theorem Outcome.receipts {op : Op} {res : Result} (h : Outcome P s db op res db')
    (hrec : db.Receipts) : db'.Receipts := by
  cases h with
  | changed _ _ hcs => exact ⟨hcs.requests ▸ hrec.keyed, hcs.requests ▸ hrec.answered⟩
  | replayed => exact hrec
  | mutated _ hnone _ _ _ => exact hrec.append rfl hnone rfl

/-- The tables other than the receipts are changed by a sequence of changes. -/
theorem Outcome.changes {op : Op} {res : Result} (h : Outcome P s db op res db') :
    ∃ cs mid, Changes P s db cs mid ∧ db' = mid.withRequests db'.requests := by
  cases h with
  | changed _ _ hcs => exact ⟨_, _, hcs, rfl⟩
  | replayed => exact ⟨[], db, .nil, rfl⟩
  | mutated _ _ _ hcs _ => exact ⟨_, _, hcs, rfl⟩

theorem Outcome.sound {op : Op} {res : Result} (h : Outcome P s db op res db') (hdb : db.Sound) :
    db'.Sound := by
  obtain ⟨cs, mid, hcs, heq⟩ := h.changes
  refine ⟨?_, h.receipts hdb.receipts⟩
  rw [heq]
  exact (hcs.wf hdb.wf).withRequests _

/-- A property of the tables that every change keeps is kept by every call. -/
theorem Outcome.inv {I : Db → Prop} {op : Op} {res : Result}
    (hreq : ∀ {db} rs, I db → I (db.withRequests rs))
    (hstep : ∀ {db c db'}, db.WF → I db → Effect P s db c db' → I db')
    (h : Outcome P s db op res db') (hwf : db.WF) (hI : I db) : I db' := by
  obtain ⟨cs, mid, hcs, heq⟩ := h.changes
  rw [heq]
  exact hreq _ (hcs.inv hstep hwf hI).2

/-- An outcome whatever the oracles. -/
theorem perform_any {c : Call} {res : Result} (hdb : db.Sound)
    (h : perform c db = (.ok res, db')) : Outcome (fun _ => True) c.server db c.op res db' :=
  perform_outcome (fun _ => trivial) hdb.wf hdb.receipts h

theorem exec_sound (cs : List Call) (h : db.Sound) : (exec cs db).Sound :=
  Machine.exec_inv perform_transactional cs
    (fun _ _ _ _ _ hdb hc => (perform_any hdb hc).sound hdb) h

/-- Invariants of the tables: what holds of the empty database and survives every
change holds in every reachable state. -/
theorem Reachable.inv {I : Db → Prop} (hempty : I Db.empty)
    (hreq : ∀ {db} rs, I db → I (db.withRequests rs))
    (hstep : ∀ {s db c db'}, db.WF → I db → Effect (fun _ => True) s db c db' → I db')
    (h : Reachable db) : db.Sound ∧ I db := by
  obtain ⟨cs, rfl⟩ := h
  refine Machine.exec_inv (I := fun db => db.Sound ∧ I db) perform_transactional cs ?_
    ⟨Db.sound_empty, hempty⟩
  rintro c - db res db' ⟨hdb, hI⟩ hc
  have hout := perform_any hdb hc
  exact ⟨hout.sound hdb, hout.inv hreq hstep hdb.wf hI⟩

/-! ## Applied calls -/

/-- No receipt is stored for the operation. -/
def Op.fresh (op : Op) (db : Db) : Bool :=
  op.key.all (fun key => (db.request? key.1 key.2).isNone)

/-- The operation repeats one whose receipt is stored. -/
def Op.Replays (op : Op) (db : Db) : Prop :=
  ∃ key row, op.key = some key ∧ db.request? key.1 key.2 = some row ∧ row.payloadHash = op.hash

/-- The call succeeds and is not the replay of an earlier one. -/
def Call.applied (c : Call) (db : Db) : Bool := (perform c db).1.isOk && c.op.fresh db

theorem Call.applied_ok {c : Call} (h : c.applied db = true) :
    ∃ res, (perform c db).1 = .ok res ∧ c.op.fresh db = true := by
  simp only [Call.applied, Bool.and_eq_true] at h
  cases hres : (perform c db).1 with
  | error e => simp [hres, Except.isOk, Except.toBool] at h
  | ok res => exact ⟨res, rfl, h.2⟩

theorem Outcome.fresh_or_replays {op : Op} {res : Result} (h : Outcome P s db op res db') :
    (op.fresh db = true ∧ ∃ cs mid, op.Makes P db cs ∧ Changes P s db cs mid ∧
      db' = mid.withRequests db'.requests) ∨ (op.fresh db = false ∧ op.Replays db ∧ db' = db) := by
  cases h with
  | changed hkey hmakes hcs => exact .inl ⟨by simp [Op.fresh, hkey], _, _, hmakes, hcs, rfl⟩
  | replayed hkey hrow hhash _ =>
      exact .inr ⟨by simp [Op.fresh, hkey, hrow], ⟨_, _, hkey, hrow, hhash⟩, rfl⟩
  | mutated hkey hnone hmakes hcs _ =>
      exact .inl ⟨by simp [Op.fresh, hkey, hnone], _, _, hmakes, hcs, rfl⟩

/-- What an applied call does to the tables other than the receipts. -/
theorem Call.applied_changes {c : Call} (hP : ∀ n, P (c.oracle n)) (hdb : db.Sound)
    (h : c.applied db = true) :
    ∃ cs mid, c.op.Makes P db cs ∧ Changes P c.server db cs mid ∧
      (perform c db).2 = mid.withRequests (perform c db).2.requests := by
  obtain ⟨res, hres, hfresh⟩ := Call.applied_ok h
  rcases (perform_outcome hP hdb.wf hdb.receipts (Prod.ext hres rfl)).fresh_or_replays with
    ⟨-, hchanges⟩ | ⟨hnot, -, -⟩
  · exact hchanges
  · rw [hfresh] at hnot
    cases hnot

/-- A call that is not applied is rejected or a replay, and changes nothing. -/
theorem perform_unapplied {c : Call} (hdb : db.Sound) (h : c.applied db = false) :
    (perform c db).2 = db ∧ (c.op.Replays db ∨ ∃ e, (perform c db).1 = .error e) := by
  cases hres : (perform c db).1 with
  | error e => exact ⟨perform_transactional c db e hres, .inr ⟨e, rfl⟩⟩
  | ok res =>
      rcases (perform_any hdb (Prod.ext hres rfl)).fresh_or_replays with
        ⟨hfresh, -⟩ | ⟨-, hrep, heq⟩
      · simp [Call.applied, hres, hfresh, Except.isOk, Except.toBool] at h
      · exact ⟨heq, .inl hrep⟩

end Calls

end Rungrid
