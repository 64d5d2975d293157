-- SUMMARY: Mutations take effect once: duplicates are answered from the receipt, and conflicting reuse is rejected.
import Rungrid.Lifecycle.Operations

/-!
# Receipts

The receipt of a mutation is written in the transaction that makes its changes,
and it is never removed. A transmission whose key has a receipt makes no changes:
it returns the stored response, or it is rejected because its payload is another
one. A run with duplicates therefore leaves what its first successful
transmissions leave.
-/

namespace Rungrid

open Prog (sql Runs run run_map pure_eq exec_bind done_bind not_runs_fail runs_sql_bind runs_bind
  runs_of_run)

/-! ## A key that has a receipt -/

/-- The scopes and request ids `Mutate` and the `requests` table admit. -/
structure Admitted (scope id : String) : Prop where
  nonempty : id ≠ ""
  short : id.utf8ByteSize ≤ 256
  scopeText : Text.hasNul scope = false
  idText : Text.hasNul id = false

/-- `RPC` admits the worker and session ids of the request. -/
def Op.idsOk : Op → Bool
  | .rpc _ r => Store.idsOk r
  | _ => true

section Mutate

variable [Sha256] {P : Oracle → Prop} {db db' : Db} {scope id : String} {payload : Json}
  {fn : Prog Response}

theorem mutate_admitted {res : Response} (h : Runs P (Store.mutate scope id payload fn) db res db') :
    Admitted scope id := by
  unfold Store.mutate at h
  split at h
  · exact absurd h not_runs_fail
  · rename_i hid
    obtain ⟨o, r, ws, -, he, -⟩ := runs_sql_bind.mp h
    simp only [Stmt.eval] at he
    split at he
    · cases he
    · rename_i hnul
      simp only [not_or, not_lt] at hid
      simp only [Bool.or_eq_true, not_or, Bool.not_eq_true] at hnul
      exact ⟨hid.1, hid.2, hnul.1, hnul.2⟩

/-- A mutation whose key has a receipt. -/
theorem mutate_receipt {row : RequestRec} {res : Response} (h : Admitted scope id)
    (hrow : db.request? scope id = some row) (hres : row.response = some res) (o : Nat → Oracle) :
    (Store.mutate scope id payload fn).run o db =
      if row.payloadHash = Sha256.hex payload.marshal then .ok (res, db)
      else .error (.conflict none) := by
  have hguard : ¬ (id = "" ∨ id.utf8ByteSize > 256) := not_or.mpr ⟨h.nonempty, not_lt.mpr h.short⟩
  have hinsert : ∀ o : Oracle, (Stmt.insertRequest scope id (Sha256.hex payload.marshal)).eval o db db
      = .ok ((), []) := fun o => by
    simp [Stmt.eval, h.scopeText, h.idText, hrow]
  have hlock : ∀ o : Oracle, (Stmt.lockRequest scope id).eval o db db
      = .ok (some (row.payloadHash, row.response), []) := fun o => by
    simp [Stmt.eval, hrow]
  rw [Store.mutate, if_neg hguard]
  simp only [sql, exec_bind, done_bind, run, hinsert, hlock, Db.applyAll_nil, hres]
  by_cases hhash : row.payloadHash = Sha256.hex payload.marshal <;> simp [hhash, run]

/-- A mutation whose key has no receipt. -/
theorem mutate_fresh (h : Admitted scope id) (hnone : db.request? scope id = none) (o : Nat → Oracle) :
    (Store.mutate scope id payload fn).run o db =
      (fn >>= fun res => sql (.setResponse scope id res) >>= fun _ => pure res).run (fun n => o (n + 2))
        (db.withRequests (db.requests ++
          [⟨scope, id, Sha256.hex payload.marshal, none, (o 0).clock 0⟩])) := by
  have hguard : ¬ (id = "" ∨ id.utf8ByteSize > 256) := not_or.mpr ⟨h.nonempty, not_lt.mpr h.short⟩
  have hinsert : ∀ o : Oracle, (Stmt.insertRequest scope id (Sha256.hex payload.marshal)).eval o db db
      = .ok ((), [.insertRequest ⟨scope, id, Sha256.hex payload.marshal, none, o.clock 0⟩]) := fun o => by
    simp [Stmt.eval, h.scopeText, h.idText, hnone]
  have hfound : (db.withRequests (db.requests ++
      [⟨scope, id, Sha256.hex payload.marshal, none, (o 0).clock 0⟩])).request? scope id
      = some ⟨scope, id, Sha256.hex payload.marshal, none, (o 0).clock 0⟩ :=
    @Db.request?_append _ ⟨scope, id, Sha256.hex payload.marshal, none, (o 0).clock 0⟩ hnone
  have happly : db.applyAll [.insertRequest ⟨scope, id, Sha256.hex payload.marshal, none, (o 0).clock 0⟩]
      = db.withRequests (db.requests ++
        [⟨scope, id, Sha256.hex payload.marshal, none, (o 0).clock 0⟩]) := rfl
  have hlock : ∀ o' : Oracle, (Stmt.lockRequest scope id).eval o' (db.withRequests (db.requests ++
      [⟨scope, id, Sha256.hex payload.marshal, none, (o 0).clock 0⟩])) (db.withRequests (db.requests ++
      [⟨scope, id, Sha256.hex payload.marshal, none, (o 0).clock 0⟩]))
      = .ok (some (Sha256.hex payload.marshal, none), []) := fun o' => by
    simp [Stmt.eval, hfound]
  rw [Store.mutate, if_neg hguard]
  simp only [sql, exec_bind, done_bind, run, hinsert, happly, hlock, Db.applyAll_nil, ne_eq,
    not_true_eq_false, ↓reduceIte]

end Mutate

section Calls

variable [Sha256] {db db' : Db} {c : Call} {key : String × String}

theorem perform_admitted {res : Result} (hkey : c.op.key = some key)
    (h : perform c db = (.ok res, db')) : Admitted key.1 key.2 ∧ c.op.idsOk = true := by
  have hrun : Runs (fun _ => True) (c.op.prog c.server) db res db' :=
    runs_of_run (fun _ => trivial) (perform_ok.mp h)
  revert hkey hrun
  cases c.op with
  | submit jobs => intro hkey; cases hkey
  | reap => intro hkey; cases hkey
  | rpc m r =>
      intro hkey hrun
      obtain ⟨response, mid, hrpc, -⟩ := runs_bind.mp hrun
      unfold Store.rpc at hrpc
      split at hrpc
      · exact absurd hrpc not_runs_fail
      · rename_i hids
        cases hkey
        exact ⟨mutate_admitted hrpc, by simpa [Op.idsOk] using hids⟩
  | action id a requestID =>
      intro hkey hrun
      obtain ⟨response, mid, haction, -⟩ := runs_bind.mp hrun
      cases hkey
      exact ⟨mutate_admitted haction, rfl⟩

/-- A request whose key has no receipt runs its body. -/
theorem perform_fresh {s : Store} {m : Method} {r : Request} {o : Nat → Oracle} {res : Response}
    (hids : Store.idsOk r = true) (h : Admitted (Store.rpcScope m r) r.requestID)
    (hnone : db.request? (Store.rpcScope m r) r.requestID = none)
    (hrun : (s.rpcBody m r >>= fun res => sql (.setResponse (Store.rpcScope m r) r.requestID res) >>=
        fun _ => pure res).run (fun n => o (n + 2)) (db.withRequests (db.requests ++
          [⟨Store.rpcScope m r, r.requestID, Sha256.hex r.toJson.marshal, none, (o 0).clock 0⟩]))
      = .ok (res, db')) :
    perform ⟨s, .rpc m r, o⟩ db = (.ok (.response res), db') := by
  have hrpc : (s.rpc m r).run o db = .ok (res, db') := by
    rw [Store.rpc, hids, Bool.not_true, if_neg (by decide), mutate_fresh h hnone, hrun]
  refine perform_ok.mpr ?_
  have hmap := Prog.run_map (s.rpc m r) Result.response o db
  rw [hrpc] at hmap
  exact hmap

/-- The response of the body is the answer, and only the receipt is added. -/
theorem perform_answered {s : Store} {m : Method} {r : Request} {o : Nat → Oracle} {res : Response}
    {mid : Db} (hids : Store.idsOk r = true) (h : Admitted (Store.rpcScope m r) r.requestID)
    (hnone : db.request? (Store.rpcScope m r) r.requestID = none)
    (hrun : (s.rpcBody m r).run (fun n => o (n + 2)) (db.withRequests (db.requests ++
          [⟨Store.rpcScope m r, r.requestID, Sha256.hex r.toJson.marshal, none, (o 0).clock 0⟩]))
      = .ok (res, mid)) :
    ∃ rs, perform ⟨s, .rpc m r, o⟩ db = (.ok (.response res), mid.withRequests rs) := by
  obtain ⟨k, hk⟩ := Prog.run_bind
    (f := fun res => sql (.setResponse (Store.rpcScope m r) r.requestID res) >>= fun _ => pure res) hrun
  cases hrow : mid.request? (Store.rpcScope m r) r.requestID with
  | none =>
      refine ⟨mid.requests, perform_fresh hids h hnone (hk.trans ?_)⟩
      simp [sql, run, Stmt.eval, hrow, updateRow]
  | some row =>
      refine ⟨Table.put RequestRec.key { row with response := some res } mid.requests,
        perform_fresh hids h hnone (hk.trans ?_)⟩
      simp [sql, run, Stmt.eval, hrow, updateRow]
      rfl

/-- A call whose key has a receipt is answered without a change. -/
theorem perform_receipt {row : RequestRec} {res : Response} (hkey : c.op.key = some key)
    (hadm : Admitted key.1 key.2) (hrow : db.request? key.1 key.2 = some row)
    (hres : row.response = some res) :
    perform c db = (if c.op.idsOk then
      if row.payloadHash = c.op.hash then .ok (.response res) else .error (.conflict none)
      else .error (.invalid none), db) := by
  obtain ⟨server, op, oracle⟩ := c
  cases op with
  | submit jobs => cases hkey
  | reap => cases hkey
  | rpc m r =>
      cases hkey
      simp only [perform, Op.prog, pure_eq, run_map, Store.rpc, Op.idsOk, Op.hash, Op.payload]
      by_cases hids : Store.idsOk r = true
      · simp only [hids, Bool.not_true, Bool.false_eq_true, ↓reduceIte, mutate_receipt hadm hrow hres]
        by_cases hhash : row.payloadHash = Sha256.hex r.toJson.marshal <;> simp [hhash, Except.map]
      · simp [hids, run, Except.map]
  | action id a requestID =>
      cases hkey
      simp only [perform, Op.prog, pure_eq, run_map, Store.action, Op.idsOk, Op.hash, Op.payload,
        mutate_receipt hadm hrow hres, ↓reduceIte]
      by_cases hhash : row.payloadHash = Sha256.hex (Json.str id).marshal <;> simp [hhash, Except.map]

/-! ## Receipts along runs -/

/-- A successful mutation leaves a receipt with its digest and its response. -/
theorem perform_leaves_receipt {res : Result} (hdb : db.Sound) (hkey : c.op.key = some key)
    (h : perform c db = (.ok res, db')) :
    ∃ row r, db'.request? key.1 key.2 = some row ∧ row.payloadHash = c.op.hash ∧
      row.response = some r ∧ res = .response r := by
  cases perform_any hdb h with
  | changed hnone _ _ => rw [hnone] at hkey; cases hkey
  | replayed hkey' hrow hhash hres =>
      obtain rfl := Option.some.inj (hkey'.symm.trans hkey)
      exact ⟨_, _, hrow, hhash, hres, rfl⟩
  | @mutated _ r _ _ o hkey' hnone _ _ _ =>
      obtain rfl := Option.some.inj (hkey'.symm.trans hkey)
      exact ⟨_, r, @Db.request?_append db ⟨_, _, c.op.hash, some r, o.clock 0⟩ hnone, rfl, rfl, rfl⟩

theorem perform_keeps_receipt {row : RequestRec} (hdb : db.Sound) (c : Call)
    (hrow : db.request? key.1 key.2 = some row) :
    (perform c db).2.request? key.1 key.2 = some row := by
  cases hres : (perform c db).1 with
  | error e =>
      rw [perform_transactional c db e hres]
      exact hrow
  | ok res =>
      have hout := perform_any hdb (Prod.ext hres rfl : perform c db = (.ok res, (perform c db).2))
      revert hout
      generalize (perform c db).2 = db'
      intro hout
      cases hout with
      | changed _ _ hcs => rw [Db.request?, hcs.requests]; exact hrow
      | replayed => exact hrow
      | mutated _ _ _ _ _ => exact Table.find_append_of_some _ hrow

theorem exec_keeps_receipt {row : RequestRec} (hdb : db.Sound) (cs : List Call)
    (hrow : db.request? key.1 key.2 = some row) :
    (exec cs db).request? key.1 key.2 = some row := by
  induction cs generalizing db with
  | nil => exact hrow
  | cons c cs ih => exact ih (exec_sound [c] hdb) (perform_keeps_receipt hdb c hrow)

/-- Every response was first given by a transmission that executed the operation. -/
theorem response_origin {cs : List Call} {res : Response} (hkey : c.op.key = some key)
    (h : (perform c (exec cs Db.empty)).1 = .ok (.response res)) :
    ∃ pre d post, cs ++ [c] = pre ++ d :: post ∧ d.op.key = some key ∧
      (exec pre Db.empty).request? key.1 key.2 = none ∧
      (perform d (exec pre Db.empty)).1 = .ok (.response res) := by
  have hout := perform_any (exec_sound cs Db.sound_empty)
    (Prod.ext h rfl : perform c (exec cs Db.empty) = (.ok (.response res), (perform c (exec cs Db.empty)).2))
  generalize hres : Result.response res = result at hout
  generalize (perform c (exec cs Db.empty)).2 = db' at hout
  cases hout with
  | changed hnone _ _ => rw [hnone] at hkey; cases hkey
  | mutated hkey' hnone _ _ _ =>
      obtain rfl := Option.some.inj (hkey.symm.trans hkey')
      cases hres
      exact ⟨cs, c, [], rfl, hkey, hnone, h⟩
  | @replayed _ row res' hkey' hrow _ hanswer =>
      obtain rfl := Option.some.inj (hkey.symm.trans hkey')
      cases hres
      -- The call that stored the receipt executed the operation and gave this response.
      obtain ⟨pre, d, post, result, rfl, hbefore, ⟨row', hrow', hanswer'⟩, hd⟩ := exec_origin
        (D := fun db => ∃ row, db.request? key.1 key.2 = some row ∧ row.response = some res)
        (by rintro ⟨row, hrow, -⟩; cases hrow) ⟨row, hrow, hanswer⟩
      have hnone : (exec pre Db.empty).request? key.1 key.2 = none := by
        rw [Option.eq_none_iff_forall_ne_some]
        intro old hold
        have hkept := perform_keeps_receipt (exec_sound pre Db.sound_empty) d hold
        obtain rfl := Option.some.inj (hkept.symm.trans hrow')
        exact hbefore ⟨_, hold, hanswer'⟩
      have hout := perform_any (exec_sound pre Db.sound_empty)
        (Prod.ext hd rfl : perform d (exec pre Db.empty) = (.ok result, (perform d (exec pre Db.empty)).2))
      generalize (perform d (exec pre Db.empty)).2 = db' at hout hrow'
      cases hout with
      | changed _ _ hcs =>
          rw [Db.request?, hcs.requests] at hrow'
          exact absurd ⟨row', hrow', hanswer'⟩ hbefore
      | replayed => exact absurd ⟨row', hrow', hanswer'⟩ hbefore
      | @mutated key' res' _ _ o hd' hnone' _ _ _ =>
          by_cases hsame : key' = key
          · subst hsame
            have hnew : Table.find RequestRec.key key' ((exec pre Db.empty).requests ++
                [⟨key'.1, key'.2, d.op.hash, some res', o.clock 0⟩])
                = some ⟨key'.1, key'.2, d.op.hash, some res', o.clock 0⟩ :=
              @Db.request?_append _ ⟨key'.1, key'.2, d.op.hash, some res', o.clock 0⟩ hnone'
            obtain rfl := Option.some.inj (hrow'.symm.trans hnew)
            cases hanswer'
            exact ⟨pre, d, post ++ [c], by simp, hd', hnone, hd⟩
          · have hold : (exec pre Db.empty).request? key.1 key.2 = some row' := by
              rw [← hrow']
              exact (Table.find_append_ne (fun heq => hsame heq)).symm
            exact absurd ⟨row', hold, hanswer'⟩ hbefore

end Calls

/-! ## Exactly once -/

/-- Operations with the same key and payload have the same ids. -/
theorem Op.idsOk_eq {op op' : Op} {key : String × String} (hkey : op.key = some key)
    (hkey' : op'.key = some key) (h : op'.payload = op.payload) : op'.idsOk = op.idsOk := by
  cases op with
  | submit jobs => cases hkey
  | reap => cases hkey
  | rpc m r =>
      cases op' with
      | submit jobs => cases hkey'
      | reap => cases hkey'
      | rpc m' r' =>
          simp only [Op.payload, Request.toJson, Json.obj.injEq, List.cons.injEq, Prod.mk.injEq,
            Json.str.injEq, true_and] at h
          simp [Op.idsOk, Store.idsOk, h]
      | action id a requestID => cases h
  | action id a requestID =>
      cases op' with
      | submit jobs => cases hkey'
      | reap => cases hkey'
      | rpc m' r' => cases h
      | action id' a' requestID' => rfl

/-- The digests of the payloads sent in a run tell them apart. -/
def NoCollision [Sha256] (cs : List Call) : Prop :=
  ∀ c ∈ cs, ∀ d ∈ cs, c.op.key.isSome → d.op.key.isSome → c.op.hash = d.op.hash →
    c.op.payload.marshal = d.op.payload.marshal

theorem NoCollision.part [Sha256] {cs pre post : List Call} {c : Call} (h : NoCollision cs)
    (hcs : cs = pre ++ c :: post) : NoCollision (pre ++ [c]) := by
  subst hcs
  intro a ha b hb
  exact h a (by simp at ha ⊢; tauto) b (by simp at hb ⊢; tauto)

/-- A run has the effect of the first successful transmission of each scope and
request id. A later transmission changes nothing: with the payload of a successful
one it returns the same response, and with another payload it is a conflict, or
invalid where `RPC` does not admit its worker or session id. Every receipt has a
response, and a call that fails leaves none. -/
theorem mutations_exactly_once [Sha256] (db : Db) (h : Reachable db) (cs : List Call)
    (hsha : NoCollision cs) :
    exec (Machine.firsts perform (fun c => c.op.key) [] cs db) db = exec cs db ∧
    (∀ pre c mid d post key res, cs = pre ++ c :: mid ++ d :: post →
      c.op.key = some key → d.op.key = some key → (perform c (exec pre db)).1 = .ok res →
      (d.op.payload = c.op.payload →
        perform d (exec (pre ++ c :: mid) db) = (.ok res, exec (pre ++ c :: mid) db)) ∧
      (d.op.payload ≠ c.op.payload →
        perform d (exec (pre ++ c :: mid) db) =
          (.error (if d.op.idsOk then .conflict none else .invalid none),
            exec (pre ++ c :: mid) db))) ∧
    (∀ row ∈ (exec cs db).requests, row.response.isSome) ∧
    ∀ c e, (perform c (exec cs db)).1 = .error e →
      (perform c (exec cs db)).2.requests = (exec cs db).requests := by
  obtain ⟨ds, rfl⟩ := h
  have hsound := exec_sound ds Db.sound_empty
  refine ⟨?_, ?_, (exec_sound cs hsound).receipts.answered, fun c e he => ?_⟩
  · refine Machine.exec_firsts (I := Db.Sound) perform_transactional
      (R := fun k db => ∃ row, db.request? k.1 k.2 = some row)
      (fun c s hs => exec_sound [c] hs) ?_ ?_ ?_ cs hsound (by simp)
    · intro c s r k hs hr hk
      obtain ⟨row, -, hrow, -⟩ := perform_leaves_receipt hs hk (Prod.ext hr rfl)
      exact ⟨row, hrow⟩
    · rintro c s k hs ⟨row, hrow⟩
      exact ⟨row, perform_keeps_receipt hs c hrow⟩
    · rintro c s k hs hk ⟨row, hrow⟩
      exact (perform_unapplied hs (by simp [Call.applied, Op.fresh, hk, hrow])).1
  · rintro pre c mid d post key res rfl hc hd hres
    have hpre := exec_sound pre hsound
    have hok : perform c (exec pre (exec ds Db.empty)) = (.ok res, _) := Prod.ext hres rfl
    obtain ⟨hadm, hids⟩ := perform_admitted hc hok
    obtain ⟨row, r, hrow, hhash, hans, rfl⟩ := perform_leaves_receipt hpre hc hok
    have hlater : (exec (pre ++ c :: mid) (exec ds Db.empty)).request? key.1 key.2 = some row := by
      rw [exec_append]
      exact exec_keeps_receipt (exec_sound [c] hpre) mid hrow
    rw [perform_receipt hd hadm hlater hans, hhash]
    refine ⟨fun hsame => ?_, fun hdiff => ?_⟩
    · have hd_ids : d.op.idsOk = true := (Op.idsOk_eq hc hd hsame).trans hids
      have hd_hash : d.op.hash = c.op.hash := congrArg (fun p => Sha256.hex (Json.marshal p)) hsame
      simp [hd_ids, hd_hash]
    · have hne : c.op.hash ≠ d.op.hash := fun heq => hdiff (Json.marshal_injective
        (hsha c (by simp) d (by simp) (by simp [hc]) (by simp [hd]) heq)).symm
      cases d.op.idsOk <;> simp [hne]
  · rw [perform_transactional _ _ e he]

/-- A registration that is transmitted twice. -/
theorem mutations_exactly_once_sample :
    @perform Sample.plain Sample.registerCall (@exec Sample.plain [Sample.registerCall] Db.empty) =
      (.ok (.response .registered), @exec Sample.plain [Sample.registerCall] Db.empty) :=
  ((@mutations_exactly_once Sample.plain Db.empty ⟨[], rfl⟩
    [Sample.registerCall, Sample.registerCall] (fun _ _ _ _ _ _ h => h)).2.1
      [] Sample.registerCall [] Sample.registerCall [] _ _ rfl rfl rfl (by decide +kernel)).1 rfl

/-- A registration whose request id is used again without a session id is not
answered with a conflict. -/
theorem reuse_without_session_invalid :
    let d : Call :=
      ⟨Sample.server, .rpc .registerWorker { Sample.register with sessionID := "" }, Sample.oracle 3000⟩
    @NoCollision Sample.plain [Sample.registerCall, d] ∧
      (@perform Sample.plain Sample.registerCall Db.empty).1 = .ok (.response .registered) ∧
      d.op.key = Sample.registerCall.op.key ∧ d.op.payload ≠ Sample.registerCall.op.payload ∧
      (@perform Sample.plain d (@exec Sample.plain [Sample.registerCall] Db.empty)).1
        = .error (.invalid none) := by
  refine ⟨fun _ _ _ _ _ _ h => h, by decide +kernel, rfl, ?_, by decide +kernel⟩
  simp [Op.payload, Request.toJson, Sample.registerCall, Sample.register]

end Rungrid
