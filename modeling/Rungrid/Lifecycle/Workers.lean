-- SUMMARY: A worker keeps its session and capacity, and a drained worker gets no attempts but can finish its own.
import Rungrid.Lifecycle.Placement
import Rungrid.Lifecycle.Receipts
import Rungrid.Lifecycle.Stability

/-!
# Workers

The first accepted registration of a worker fixes its session and its capacity:
later registrations are compared with the row, and every other request is checked
against its session. A release is final, because no statement makes a worker active
again. The state of the worker's row is read by `LeaseJob` alone, so a request
about an attempt is served in the same way whether or not its worker is draining.
-/

namespace Rungrid

open Prog (sql Runs run exec_bind done_bind)

/-! ## The rows of workers -/

section Rows

variable {P : Oracle → Prop} {s : Store} {db db' : Db} {c : Change}

/-- Only a registration adds the row of a worker. -/
theorem Effect.worker_none (h : Effect P s db c db') {id : String} (hid : db.worker? id = none)
    (hc : c ≠ .registered id) : db'.worker? id = none := by
  cases h with
  | @registered r o _ _ _ =>
      have hne : (r.newWorker o).id ≠ id := fun e => hc (congrArg _ e)
      exact (Table.find_append_ne hne).trans hid
  | touched hw _ =>
      refine (Table.find_put_ne _ (fun e => ?_)).trans hid
      rw [Db.worker?_id hw] at e
      rw [← e, hw] at hid
      cases hid
  | drained hw =>
      refine (Table.find_put_ne _ (fun e => ?_)).trans hid
      rw [Db.worker?_id hw] at e
      rw [← e, hw] at hid
      cases hid
  | _ => exact hid

/-- No change makes a draining worker active. -/
theorem Effect.draining (h : Effect P s db c db') {id : String} {w : WorkerRec}
    (hw : db.worker? id = some w) (hd : w.state = .draining) :
    ∃ w', db'.worker? id = some w' ∧ w'.state = .draining := by
  cases h with
  | registered _ _ _ => exact ⟨w, Table.find_append_of_some _ hw, hd⟩
  | @touched worker v o hv _ =>
      have hold : Table.find WorkerRec.id { v with lastHeartbeatAt := o.clock 0 }.id db.workers
          = some v := by
        rw [Db.worker?_id hv]
        exact hv
      rcases Table.find_put_cases hold hw with hput | ⟨rfl, hput⟩
      · exact ⟨w, hput, hd⟩
      · exact ⟨_, hput, hd⟩
  | @drained worker v hv =>
      have hold : Table.find WorkerRec.id { v with state := .draining }.id db.workers = some v := by
        rw [Db.worker?_id hv]
        exact hv
      rcases Table.find_put_cases hold hw with hput | ⟨rfl, hput⟩
      · exact ⟨w, hput, hd⟩
      · exact ⟨_, hput, rfl⟩
  | _ => exact ⟨w, hw, hd⟩

theorem Effect.drains {id : String} (h : Effect P s db (.drained id) db') :
    ∃ w, db'.worker? id = some w ∧ w.state = .draining := by
  cases h with
  | drained hw => exact ⟨_, Db.worker?_putWorker hw rfl, rfl⟩

/-- The attempts of a worker, with the columns that never change. -/
def Db.attemptsBy (db : Db) (worker : String) : List AttemptRec :=
  (db.attempts.map AttemptRec.fixed).filter (fun a => a.workerID = worker)

/-- A draining worker gets no attempt. -/
theorem Effect.attemptsBy (h : Effect P s db c db') {id : String} {w : WorkerRec} (hwf : db.WF)
    (hw : db.worker? id = some w) (hd : w.state = .draining) :
    db'.attemptsBy id = db.attemptsBy id := by
  have hput : ∀ {a a' : AttemptRec}, db.attempt? a.id = some a → a'.fixed = a.fixed →
      (Table.put AttemptRec.id a' db.attempts).map AttemptRec.fixed
        = db.attempts.map AttemptRec.fixed := by
    intro a a' ha hf
    refine Table.map_put (fun b hb hid => ?_)
    have hid' := (AttemptRec.fixed_eq hf).1
    rw [hwf.attempt_unique hb (Db.mem_of_attempt? ha) (hid.trans hid'), hf]
  unfold Db.attemptsBy
  cases h with
  | @leased worker v j aid token requestID o oj oe hv hact _ _ _ _ _ _ _ =>
      have hne : worker ≠ id := by
        rintro rfl
        rw [hw] at hv
        obtain rfl := Option.some.inj hv
        rw [hd] at hact
        cases hact
      simp [Db.apply, newAttempt, AttemptRec.fixed, hne]
  | renewed hf _ => exact congrArg _ (hput hf.attempt rfl)
  | started hf _ _ _ _ => exact congrArg _ (hput hf.attempt rfl)
  | completed hf _ _ _ _ _ => exact congrArg _ (hput hf.attempt rfl)
  | failed hf _ _ _ _ => exact congrArg _ (hput hf.attempt rfl)
  | cancelled _ _ _ _ ha _ _ _ _ _ => exact congrArg _ (hput ha rfl)
  | expired ha _ _ _ _ _ _ => exact congrArg _ (hput ha rfl)
  | _ => rfl

end Rows

/-! ## Runs -/

section Calls

variable [Sha256] {db db' : Db} {id : String}

/-- A worker that is stored is stored in every later state, with its session and
its capacity. -/
theorem exec_worker (h : Reachable db) (cs : List Call) {w : WorkerRec}
    (hw : db.worker? id = some w) :
    ∃ w', (exec cs db).worker? id = some w' ∧ w'.sessionID = w.sessionID ∧
      w'.capacity = w.capacity := by
  obtain ⟨w', hw', hf⟩ := (exec_settles h cs).grows.worker hw
  exact ⟨w', hw', (WorkerRec.fixed_eq hf).2⟩

theorem exec_draining (h : Reachable db) (cs : List Call) {w : WorkerRec}
    (hw : db.worker? id = some w) (hd : w.state = .draining) :
    (∃ w', (exec cs db).worker? id = some w' ∧ w'.state = .draining) ∧
      (exec cs db).attemptsBy id = db.attemptsBy id := by
  have hinv := Machine.exec_inv (I := fun d => d.Sound ∧
      (∃ w', d.worker? id = some w' ∧ w'.state = .draining) ∧ d.attemptsBy id = db.attemptsBy id)
    perform_transactional cs ?_ ⟨h.logged.1, ⟨w, hw, hd⟩, rfl⟩
  · exact hinv.2
  · rintro c - d res d' ⟨hsound, hI⟩ hc
    have hout := perform_any hsound hc
    refine ⟨hout.sound hsound, hout.inv (I := fun d =>
      (∃ w', d.worker? id = some w' ∧ w'.state = .draining) ∧ d.attemptsBy id = db.attemptsBy id)
      (fun _ hI => hI) ?_ hsound.wf hI⟩
    rintro d c d' hwf ⟨⟨w', hw', hd'⟩, hsame⟩ he
    exact ⟨he.draining hw' hd', (he.attemptsBy hwf hw' hd').trans hsame⟩

/-! ### Where receipts and workers come from -/

/-- A receipt is added under the key of the call. -/
theorem Outcome.key_of_added {P : Oracle → Prop} {s : Store} {op : Op} {res : Result}
    {key : String × String} (h : Outcome P s db op res db')
    (hnone : db.request? key.1 key.2 = none) (hsome : (db'.request? key.1 key.2).isSome) :
    op.key = some key := by
  cases h with
  | changed _ _ hcs =>
      rw [Db.request?, hcs.requests, ← Db.request?, hnone] at hsome
      cases hsome
  | replayed =>
      rw [hnone] at hsome
      cases hsome
  | @mutated key' _ _ _ _ hkey' _ _ _ _ =>
      by_cases hk : key' = key
      · rw [hkey', hk]
      · rw [Db.request?, Db.withRequests, Table.find_append_ne (by exact hk), ← Db.request?,
          hnone] at hsome
        cases hsome

/-- A receipt was left by a call that found none. -/
theorem exec_receipt_origin {cs : List Call} {key : String × String} {row : RequestRec}
    (h : (exec cs Db.empty).request? key.1 key.2 = some row) :
    ∃ pre d post, cs = pre ++ d :: post ∧ d.op.key = some key ∧ row.payloadHash = d.op.hash ∧
      (exec pre Db.empty).request? key.1 key.2 = none ∧
      ∃ res, (perform d (exec pre Db.empty)).1 = .ok res := by
  obtain ⟨pre, d, post, res, rfl, hpre, hd, hres⟩ := exec_origin
    (D := fun db : Db => (db.request? key.1 key.2).isSome)
    (by simp [Db.request?, Db.empty, Table.find]) (Option.isSome_of_eq_some h)
  have hnone : (exec pre Db.empty).request? key.1 key.2 = none := by simpa using hpre
  have hsound := exec_sound pre Db.sound_empty
  have hok : perform d (exec pre Db.empty) = (.ok res, _) := Prod.ext hres rfl
  have hkey := (perform_any hsound hok).key_of_added hnone hd
  obtain ⟨row', r, hrow', hhash, -⟩ := perform_leaves_receipt hsound hkey hok
  have hlater := exec_keeps_receipt (exec_sound [d] hsound) post hrow'
  have hrow : (exec (pre ++ d :: post) Db.empty).request? key.1 key.2 = some row' := by
    rw [exec_append]
    exact hlater
  rw [h] at hrow
  obtain rfl := Option.some.inj hrow
  exact ⟨pre, d, post, rfl, hkey, hhash, hnone, res, hres⟩

omit [Sha256] in
/-- The payload and the key of an RPC determine it up to the name of its method. -/
theorem Op.rpc_of_payload {op : Op} {m : Method} {r : Request}
    (h : op.payload = (Op.rpc m r).payload) (hkey : op.key = some (Store.rpcScope m r, r.requestID)) :
    ∃ m', op = .rpc m' r ∧ m'.text = m.text := by
  cases op with
  | submit jobs => cases hkey
  | reap => cases hkey
  | action id a requestID => cases h
  | rpc m' r' =>
      obtain rfl := Request.toJson_injective h
      refine ⟨m', rfl, ?_⟩
      simpa [Op.key, Store.rpcScope] using hkey

/-- A call of the run with the key and the digest of `c` has its payload. -/
def Call.Once (c : Call) (cs : List Call) : Prop :=
  ∀ d ∈ cs, d.op.key = c.op.key → d.op.hash = c.op.hash →
    d.op.payload.marshal = c.op.payload.marshal

theorem NoCollision.once {pre : List Call} {c : Call} {m : Method} {r : Request}
    (h : NoCollision (pre ++ [c])) (hop : c.op = .rpc m r) : c.Once pre := by
  intro d hd hkey hhash
  have hc : c.op.key.isSome := by rw [hop]; rfl
  exact h d (List.mem_append_left _ hd) c (by simp) (by rw [hkey]; exact hc) hc hhash

/-- An accepted request repeats one, or is one, that found no receipt, with the same
fields and the same method name. -/
theorem accepted_origin {pre : List Call} {c : Call} {m : Method} {r : Request} {res : Result}
    (honce : c.Once pre) (hop : c.op = .rpc m r)
    (hres : (perform c (exec pre Db.empty)).1 = .ok res) :
    ∃ pre' d post m', pre ++ [c] = pre' ++ d :: post ∧ d.op = .rpc m' r ∧ m'.text = m.text ∧
      (exec pre' Db.empty).request? (Store.rpcScope m' r) r.requestID = none ∧
      ∃ res', (perform d (exec pre' Db.empty)).1 = .ok res' := by
  have hsound := exec_sound pre Db.sound_empty
  have hok : perform c (exec pre Db.empty) = (.ok res, _) := Prod.ext hres rfl
  cases hrow : (exec pre Db.empty).request? (Store.rpcScope m r) r.requestID with
  | none => exact ⟨pre, c, [], m, rfl, hop, rfl, hrow, res, hres⟩
  | some row =>
      have hrow' : (exec pre Db.empty).request? (Store.rpcScope m r, r.requestID).1
          (Store.rpcScope m r, r.requestID).2 = some row := hrow
      obtain ⟨pre', d, post, rfl, hkey, hhash, hnone, hd⟩ := exec_receipt_origin hrow'
      have hkey' : c.op.key = some (Store.rpcScope m r, r.requestID) := by rw [hop]; rfl
      obtain ⟨row', -, hleft, hhash', -, -⟩ := perform_leaves_receipt hsound hkey' hok
      obtain rfl := Option.some.inj ((perform_keeps_receipt hsound c hrow').symm.trans hleft)
      have hpayload : d.op.payload = c.op.payload := Json.marshal_injective
        (honce d (by simp) (hkey.trans hkey'.symm) (hhash.symm.trans hhash'))
      rw [hop] at hpayload
      obtain ⟨m', hd', htext⟩ := Op.rpc_of_payload hpayload hkey
      refine ⟨pre', d, post ++ [c], m', by simp, hd', htext, ?_, hd⟩
      have hscope : Store.rpcScope m' r = Store.rpcScope m r := by simp [Store.rpcScope, htext]
      rw [hscope]
      exact hnone

/-! ### What an accepted request tells about its worker -/

omit [Sha256] in
theorem Served.drains {P : Oracle → Prop} {r : Request} {cs : List Change}
    (h : Served P db r .releaseWorker cs) : cs = [.drained r.workerID] := by
  cases h with
  | released => rfl
  | attempt _ hmc => cases hmc

omit [Sha256] in
theorem Served.known {P : Oracle → Prop} {m : Method} {r : Request} {cs : List Change}
    (h : Served P db r m cs) (name : String) : m ≠ .unknown name := by
  rintro rfl
  cases h with
  | attempt _ hmc => cases hmc

omit [Sha256] in
/-- The methods of the service have different names. -/
theorem Method.eq_of_text {m m' : Method} (h : m'.text = m.text) (hm : ∀ name, m ≠ .unknown name)
    (hm' : ∀ name, m' ≠ .unknown name) : m' = m := by
  cases m <;> cases m' <;> simp_all [Method.text]

/-- What is known of the worker after an accepted request without a receipt. -/
structure Serves (db db' : Db) (m : Method) (r : Request) (w : WorkerRec) : Prop where
  row : db'.worker? r.workerID = some w
  session : w.sessionID = r.sessionID
  capacity : m = .registerWorker → w.capacity = r.resources
  draining : m = .releaseWorker → w.state = .draining
  known : ∀ name, m ≠ .unknown name
  before : m ≠ .registerWorker → (db.worker? r.workerID).isSome

theorem perform_serves {c : Call} {m : Method} {r : Request} {res : Result} (hop : c.op = .rpc m r)
    (hdb : db.Sound) (hfresh : db.request? (Store.rpcScope m r) r.requestID = none)
    (h : perform c db = (.ok res, db')) : ∃ w, Serves db db' m r w := by
  obtain ⟨response, rs, rs', mid, -, hbody, rfl⟩ :=
    perform_body (P := fun _ => True) hop (fun _ => trivial) hdb hfresh h
  by_cases hm : m = .registerWorker
  · subst hm
    obtain ⟨cs, -, -, -, w, hw, hsession, hcap⟩ := registerBody_runs (s := c.server) hbody
    exact ⟨w, hw, hsession, fun _ => hcap, by simp, by simp, by simp⟩
  · have hbody' : Runs (fun _ => True) (c.server.workerBody m r) (db.withRequests rs) response mid := by
      cases m <;> first | exact hbody | exact absurd rfl hm
    obtain ⟨w, hw, hsession, cs, hcs, hserved⟩ := workerBody_runs hbody'
    obtain ⟨w', hw', hf⟩ := hcs.grows.worker hw
    refine ⟨w', hw', (WorkerRec.fixed_eq hf).2.1.trans hsession, fun e => absurd e hm, ?_,
      hserved.known, fun _ => Option.isSome_of_eq_some hw⟩
    rintro rfl
    obtain rfl := hserved.drains
    have hcs' : Changes (fun _ => True) c.server (db.withRequests rs)
        ([.touched r.workerID] ++ [.drained r.workerID]) mid := hcs
    obtain ⟨d, -, hlast⟩ := hcs'.split
    obtain ⟨v, hv, hdrain⟩ := hlast.of_one.drains
    obtain rfl := Option.some.inj (hw'.symm.trans hv)
    exact hdrain

/-- After an accepted request its worker is stored, with the session of the request. -/
theorem accepted_worker {pre : List Call} {c : Call} {m : Method} {r : Request} {res : Result}
    (hsha : NoCollision (pre ++ [c])) (hop : c.op = .rpc m r)
    (hres : (perform c (exec pre Db.empty)).1 = .ok res) :
    ∃ w, (exec (pre ++ [c]) Db.empty).worker? r.workerID = some w ∧ w.sessionID = r.sessionID ∧
      (m = .registerWorker → w.capacity = r.resources) ∧
      (m = .releaseWorker → w.state = .draining) := by
  obtain ⟨pre', d, post, m', hsplit, hd, htext, hnone, res', hres'⟩ := accepted_origin (hsha.once hop) hop hres
  obtain ⟨w, hs⟩ := perform_serves hd (exec_sound pre' Db.sound_empty) hnone (Prod.ext hres' rfl)
  have hreach : Reachable (perform d (exec pre' Db.empty)).2 := Reachable.perform ⟨pre', rfl⟩ d
  have hexec : exec (pre ++ [c]) Db.empty = exec post (perform d (exec pre' Db.empty)).2 := by
    rw [hsplit, exec_append]
    rfl
  obtain ⟨w', hw', hsession, hcap⟩ := exec_worker hreach post hs.row
  rw [hexec]
  refine ⟨w', hw', hsession.trans hs.session, ?_, ?_⟩
  · rintro rfl
    exact hcap.trans (hs.capacity (Method.eq_of_text htext (by simp) hs.known))
  · rintro rfl
    have hm := Method.eq_of_text htext (by simp) hs.known
    obtain ⟨⟨v, hv, hdrain⟩, -⟩ := exec_draining hreach post hs.row (hs.draining hm)
    rw [hw'] at hv
    obtain rfl := Option.some.inj hv
    exact hdrain

/-- A request other than a registration is accepted when its worker is stored. -/
theorem accepted_before {pre : List Call} {c : Call} {m : Method} {r : Request} {res : Result}
    (hsha : NoCollision (pre ++ [c])) (hop : c.op = .rpc m r) (hm : m ≠ .registerWorker)
    (hres : (perform c (exec pre Db.empty)).1 = .ok res) :
    ((exec pre Db.empty).worker? r.workerID).isSome := by
  obtain ⟨pre', d, post, m', hsplit, hd, -, hnone, res', hres'⟩ := accepted_origin (hsha.once hop) hop hres
  obtain ⟨w, hs⟩ := perform_serves hd (exec_sound pre' Db.sound_empty) hnone (Prod.ext hres' rfl)
  rcases List.eq_nil_or_concat post with rfl | ⟨post', e, rfl⟩
  · obtain ⟨rfl, hcd⟩ := List.append_inj' hsplit rfl
    obtain rfl : c = d := by simpa using hcd
    rw [hop] at hd
    obtain rfl : m = m' := by simpa using hd
    exact hs.before hm
  · have hpre : pre = pre' ++ d :: post' := by
      rw [List.concat_eq_append, ← List.cons_append, ← List.append_assoc] at hsplit
      exact (List.append_inj' hsplit rfl).1
    have hexec : exec pre Db.empty = exec post' (perform d (exec pre' Db.empty)).2 := by
      rw [hpre, exec_append]
      rfl
    obtain ⟨w', hw', -⟩ := exec_worker (Reachable.perform ⟨pre', rfl⟩ d) post' hs.row
    rw [hexec]
    exact Option.isSome_of_eq_some hw'

omit [Sha256] in
/-- Only a registration registers a worker. -/
theorem Op.Makes.registers {P : Oracle → Prop} {op : Op} {cs : List Change} (h : op.Makes P db cs)
    (hmem : .registered id ∈ cs) : ∃ r, op = .rpc .registerWorker r ∧ r.workerID = id := by
  cases op with
  | submit jobs =>
      obtain ⟨job, hjob⟩ := h _ hmem
      cases hjob
  | reap =>
      obtain ⟨job, attempt, hjob⟩ := h _ hmem
      cases hjob
  | action text a requestID =>
      obtain ⟨job, -, ha, rfl⟩ := h
      rcases ha with rfl | rfl <;> simp [Action.change] at hmem
  | rpc m r =>
      by_cases hm : m = .registerWorker
      · subst hm
        rcases h with rfl | rfl
        · cases hmem
        · exact ⟨r, rfl, by simpa using (List.mem_singleton.mp hmem).symm⟩
      · have hserved : ∃ cs', cs = .touched r.workerID :: cs' ∧ Served P db r m cs' := by
          cases m <;> first
            | exact absurd rfl hm
            | (obtain ⟨w, cs', -, -, rfl, hs⟩ := h
               exact ⟨cs', rfl, hs⟩)
        obtain ⟨cs', rfl, hs⟩ := hserved
        refine absurd ((List.mem_cons.mp hmem).resolve_left (by simp)) ?_
        cases hs with
        | @attempt m a j cs _ hmc =>
            cases m <;> simp only [Method.attemptChanges] at hmc
            case heartbeat => simp [hmc]
            case startAttempt => rcases hmc with rfl | rfl <;> simp
            all_goals
              obtain ⟨n, rfl⟩ := hmc
              simp [List.mem_replicate]
        | _ => simp

omit [Sha256] in
theorem Changes.worker_none {P : Oracle → Prop} {s : Store} {cs : List Change}
    (h : Changes P s db cs db') (hid : db.worker? id = none) (hcs : .registered id ∉ cs) :
    db'.worker? id = none := by
  induction h with
  | nil => exact hid
  | cons he _ ih =>
      rw [List.mem_cons, not_or] at hcs
      exact ih (he.worker_none hid (fun e => hcs.1 e.symm)) hcs.2

/-- A worker that is stored was registered. -/
theorem exec_worker_origin {cs : List Call} (h : ((exec cs Db.empty).worker? id).isSome) :
    ∃ pre c post r res, cs = pre ++ c :: post ∧ c.op = .rpc .registerWorker r ∧ r.workerID = id ∧
      (perform c (exec pre Db.empty)).1 = .ok res := by
  obtain ⟨pre, c, post, res, rfl, hpre, hc, hres⟩ := exec_origin
    (D := fun db : Db => (db.worker? id).isSome) (by simp [Db.worker?, Db.empty, Table.find]) h
  have hsound := exec_sound pre Db.sound_empty
  have hnone : (exec pre Db.empty).worker? id = none := by simpa using hpre
  have hok : perform c (exec pre Db.empty) = (.ok res, (perform c (exec pre Db.empty)).2) :=
    Prod.ext hres rfl
  rcases (perform_any hsound hok).fresh_or_replays with
    ⟨-, cs, mid, hmakes, hcs, heq⟩ | ⟨-, -, heq⟩
  · by_cases hmem : .registered id ∈ cs
    · obtain ⟨r, hop, hr⟩ := hmakes.registers hmem
      exact ⟨pre, c, post, r, res, rfl, hop, hr, hres⟩
    · have hmid : (mid.withRequests (perform c (exec pre Db.empty)).2.requests).worker? id = none :=
        hcs.worker_none hnone hmem
      rw [heq, hmid] at hc
      cases hc
  · rw [heq] at hc
    exact absurd hc hpre

end Calls

/-! ## Draining does not disturb attempts -/

/-- The row with the state of an active worker, if it is the worker's. -/
def WorkerRec.activate (id : String) (w : WorkerRec) : WorkerRec :=
  if w.id = id then { w with state := .active } else w

/-- The database in which the worker is active. -/
def Db.activate (db : Db) (id : String) : Db :=
  { db with workers := db.workers.map (WorkerRec.activate id) }

/-- The databases differ at most in the state of the worker. -/
def Db.Alike (id : String) (A B : Db) : Prop := A.activate id = B.activate id

section Alike

variable {id : String} {A B : Db}

@[simp] theorem WorkerRec.activate_id (id : String) (w : WorkerRec) : (w.activate id).id = w.id := by
  unfold activate
  split <;> rfl

theorem WorkerRec.activate_eq {w v : WorkerRec} (h : w.activate id = v.activate id) :
    v = { w with state := v.state } := by
  have hid : w.id = v.id := by simpa using congrArg WorkerRec.id h
  unfold activate at h
  by_cases hw : w.id = id
  · rw [if_pos hw, if_pos (hid ▸ hw)] at h
    obtain ⟨⟩ := w
    obtain ⟨⟩ := v
    simp only [WorkerRec.mk.injEq] at h ⊢
    simp [h]
  · rw [if_neg hw, if_neg (hid ▸ hw)] at h
    rw [h]

theorem Db.activate_alike (db : Db) (id : String) : Db.Alike id (db.activate id) db := by
  have hmap : db.workers.map (WorkerRec.activate id ∘ WorkerRec.activate id)
      = db.workers.map (WorkerRec.activate id) := by
    refine List.map_congr_left (fun w _ => ?_)
    by_cases hw : w.id = id <;> simp [WorkerRec.activate, hw]
  simp only [Db.Alike, Db.activate, List.map_map, hmap]

theorem Db.Alike.worker (h : Db.Alike id A B) (i : String) :
    (A.worker? i).map (WorkerRec.activate id) = (B.worker? i).map (WorkerRec.activate id) := by
  have hw : A.workers.map (WorkerRec.activate id) = B.workers.map (WorkerRec.activate id) :=
    congrArg Db.workers h
  rw [Db.worker?, Db.worker?, ← Table.find_map (WorkerRec.activate_id id), hw,
    Table.find_map (WorkerRec.activate_id id)]

theorem Db.Alike.apply (h : Db.Alike id A B) {w v : Write}
    (hw : w = v ∨ ∃ r r', w = .putWorker r ∧ v = .putWorker r' ∧ r.activate id = r'.activate id) :
    Db.Alike id (A.apply w) (B.apply v) := by
  obtain ⟨jobs, workers, attempts, artifacts, events, requests⟩ := A
  obtain ⟨jobs', workers', attempts', artifacts', events', requests'⟩ := B
  simp only [Db.Alike, Db.activate, Db.mk.injEq] at h
  obtain ⟨rfl, hwork, rfl, rfl, rfl, rfl⟩ := h
  rcases hw with rfl | ⟨r, r', rfl, rfl, hr⟩
  · cases w with
    | insertWorker r => simp [Db.Alike, Db.activate, Db.apply, hwork]
    | putWorker r =>
        simp only [Db.Alike, Db.activate, Db.apply, Table.map_put_comm (WorkerRec.activate_id id), hwork]
    | _ => simp [Db.Alike, Db.activate, Db.apply, hwork]
  · simp only [Db.Alike, Db.activate, Db.apply, Table.map_put_comm (WorkerRec.activate_id id), hwork, hr]

theorem Db.Alike.applyAll (h : Db.Alike id A B) (ws : List Write) :
    Db.Alike id (A.applyAll ws) (B.applyAll ws) := by
  induction ws generalizing A B with
  | nil => exact h
  | cons w ws ih => exact ih (h.apply (.inl rfl))

/-- The same result or error, and databases that are alike. -/
inductive SameOutcome {α : Type} (R : Db → Db → Prop) :
    Except Err (α × Db) → Except Err (α × Db) → Prop where
  | ok {a : α} {A B : Db} : R A B → SameOutcome R (.ok (a, A)) (.ok (a, B))
  | error {e : Err} : SameOutcome R (.error e) (.error e)

/-- What a statement returns, with the database it leaves. -/
def Stmt.effect (st : Stmt) (o : Oracle) (db : Db) : Except Err (st.Result × Db) :=
  (st.eval o db db).map (fun p => (p.1, db.applyAll p.2))

theorem Db.Alike.isSome (h : Db.Alike id A B) (i : String) :
    (A.worker? i).isSome = (B.worker? i).isSome := by
  simpa using congrArg Option.isSome (h.worker i)

/-- An update of the row of a worker that keeps its state or sets it. -/
theorem Db.Alike.updateRow (h : Db.Alike id A B) (i : String) {g : WorkerRec → WorkerRec}
    (hg : ∀ w v, w.activate id = v.activate id → (g w).activate id = (g v).activate id) :
    Db.Alike id (A.applyAll (updateRow (A.worker? i) (fun w => .putWorker (g w))))
      (B.applyAll (updateRow (B.worker? i) (fun w => .putWorker (g w)))) := by
  have hrow := h.worker i
  cases hA : A.worker? i with
  | none =>
      rw [hA, Option.map_none, eq_comm, Option.map_eq_none_iff] at hrow
      rw [hrow]
      exact h
  | some w =>
      rw [hA, Option.map_some, eq_comm] at hrow
      obtain ⟨v, hB, hv⟩ := Option.map_eq_some_iff.mp hrow
      rw [hB]
      exact h.apply (.inr ⟨_, _, rfl, rfl, hg w v hv.symm⟩)

/-- Only a query for the row of the worker sees its state. -/
theorem Stmt.effect_alike {st : Stmt} (hst : st ≠ .lockWorker id) (h : Db.Alike id A B) (o : Oracle) :
    SameOutcome (Db.Alike id) (st.effect o A) (st.effect o B) := by
  have hsame : st.eval o A A = st.eval o B B →
      SameOutcome (Db.Alike id) (st.effect o A) (st.effect o B) := by
    intro heq
    rw [Stmt.effect, Stmt.effect, heq]
    cases st.eval o B B with
    | error e => exact .error
    | ok p => exact .ok (h.applyAll p.2)
  have htables := h
  obtain ⟨jobs, workers, attempts, artifacts, events, requests⟩ := A
  obtain ⟨jobs', workers', attempts', artifacts', events', requests'⟩ := B
  simp only [Db.Alike, Db.activate, Db.mk.injEq] at htables
  obtain ⟨rfl, -, rfl, rfl, rfl, rfl⟩ := htables
  cases st with
  | lockWorker i =>
      refine hsame ?_
      have hne : i ≠ id := fun e => hst (congrArg Stmt.lockWorker e)
      have hid : ∀ {d : Db} {w : WorkerRec}, d.worker? i = some w → w.activate id = w := by
        intro d w hw
        rw [WorkerRec.activate, if_neg (by rw [Db.worker?_id hw]; exact hne)]
      have hrow : (Db.mk jobs workers attempts artifacts events requests).worker? i
          = (Db.mk jobs workers' attempts artifacts events requests).worker? i := by
        have hmap := h.worker i
        rwa [Option.map_congr (fun w hw => hid hw), Option.map_congr (fun w hw => hid hw),
          Option.map_id', Option.map_id'] at hmap
      simp only [Stmt.eval, hrow]
  | insertWorker r => exact hsame (by simp only [Stmt.eval, h.isSome])
  | insertAttempt aid job worker token lease timeout =>
      refine hsame ?_
      have hnone := h.isSome worker
      rw [← Option.not_isNone, ← Option.not_isNone, Bool.not_inj_iff] at hnone
      simp only [Stmt.eval, hnone]
      rfl
  | touchWorker i =>
      simp only [Stmt.effect, Stmt.eval, Except.map, reread_self]
      refine .ok (h.updateRow i (g := fun w => { w with lastHeartbeatAt := o.clock 0 }) ?_)
      have hcomm : ∀ u : WorkerRec, WorkerRec.activate id { u with lastHeartbeatAt := o.clock 0 }
          = { u.activate id with lastHeartbeatAt := o.clock 0 } := by
        intro u
        by_cases hu : u.id = id <;> simp [WorkerRec.activate, hu]
      intro w v hv
      rw [hcomm, hcomm, hv]
  | drainWorker i =>
      simp only [Stmt.effect, Stmt.eval, Except.map, reread_self]
      refine .ok (h.updateRow i (g := fun w => { w with state := .draining }) ?_)
      intro w v hv
      rw [WorkerRec.activate_eq hv]
  | _ => exact hsame rfl

/-! ### Programs that do not look at the state of the worker -/

/-- The program goes on in the same way whatever the state of the worker. -/
inductive Prog.Blind (id : String) {α : Type} : Prog α → Prop where
  | done {a : α} : Blind id (.done a)
  | fail {e : Err} : Blind id (.fail e)
  | exec {st : Stmt} {k : st.Result → Prog α} : st ≠ .lockWorker id → (∀ r, Blind id (k r)) →
      Blind id (.exec st k)
  | lock {k : Option WorkerRec → Prog α} :
      (∀ w state, k (some { w with state := state }) = k (some w)) → (∀ r, Blind id (k r)) →
      Blind id (.exec (.lockWorker id) k)

variable {α β : Type}

theorem Prog.Blind.run {p : Prog α} (hp : p.Blind id) (h : Db.Alike id A B) (o : Nat → Oracle) :
    SameOutcome (Db.Alike id) (p.run o A) (p.run o B) := by
  induction hp generalizing A B o with
  | done => exact .ok h
  | fail => exact .error
  | @exec st k hst _ ih =>
      have heff := Stmt.effect_alike hst h (o 0)
      simp only [Stmt.effect] at heff
      simp only [Prog.run]
      cases hA : st.eval (o 0) A A with
      | error e =>
          cases hB : st.eval (o 0) B B with
          | error e' =>
              rw [hA, hB] at heff
              cases heff
              exact .error
          | ok q => rw [hA, hB] at heff; cases heff
      | ok q =>
          obtain ⟨r, ws⟩ := q
          cases hB : st.eval (o 0) B B with
          | error e' => rw [hA, hB] at heff; cases heff
          | ok q' =>
              obtain ⟨r', vs⟩ := q'
              rw [hA, hB] at heff
              simp only [Except.map] at heff
              generalize hA' : A.applyAll ws = A' at heff
              generalize hB' : B.applyAll vs = B' at heff
              cases heff with
              | ok halike =>
                  subst hA' hB'
                  exact ih r halike _
  | @lock k hk _ ih =>
      simp only [Prog.run, Stmt.eval, reread_self, Db.applyAll_nil]
      have hrow := h.worker id
      cases hA : A.worker? id with
      | none =>
          rw [hA, Option.map_none, eq_comm, Option.map_eq_none_iff] at hrow
          rw [hrow]
          exact ih none h _
      | some w =>
          rw [hA, Option.map_some, eq_comm] at hrow
          obtain ⟨v, hB, hv⟩ := Option.map_eq_some_iff.mp hrow
          rw [hB, WorkerRec.activate_eq hv.symm, hk w v.state]
          exact ih (some w) h _

theorem Prog.Blind.sql {st : Stmt} {f : st.Result → Prog β} (hst : st ≠ .lockWorker id)
    (hf : ∀ r, (f r).Blind id) : (sql st >>= f).Blind id := .exec hst hf

theorem Prog.Blind.lockWorker {i : String} {f : Option WorkerRec → Prog β}
    (hf : ∀ row, (f row).Blind id)
    (hk : i = id → ∀ w state, f (some { w with state := state }) = f (some w)) :
    (Prog.sql (.lockWorker i) >>= f).Blind id := by
  by_cases hid : i = id
  · subst hid
    exact .lock (hk rfl) hf
  · exact .exec (by simpa using hid) hf

theorem Prog.Blind.bind {p : Prog α} {f : α → Prog β} (hp : p.Blind id) (hf : ∀ a, (f a).Blind id) :
    (p >>= f).Blind id := by
  induction hp with
  | done => exact hf _
  | fail => exact .fail
  | exec hst _ ih => exact .exec hst ih
  | lock hk _ ih => exact .lock (fun w state => by rw [hk]) ih

theorem Prog.Quiet.blind {p : Prog α} (hp : p.Quiet) (id : String) : p.Blind id := by
  induction p with
  | done a => exact .done
  | fail e => exact .fail
  | exec st k ih =>
      refine .exec ?_ (fun r => ih r (hp.2 r))
      rintro rfl
      cases hp.1

end Alike

section Blind

variable {id : String} {s : Store} {r : Request}

theorem registerBody_blind : (Store.registerBody r).Blind id := by
  unfold Store.registerBody
  split
  · exact .fail
  refine .sql (by simp) (fun _ => .lockWorker (fun row => ?_) (fun _ _ _ => rfl))
  split
  · exact .fail
  split
  · exact .fail
  · exact .done

theorem lease_blind {cap : Resources} : (s.lease r cap).Blind id := by
  refine .sql (by simp) (fun used => .sql (by simp) (fun found => ?_))
  split
  · exact .done
  refine .sql (by simp) (fun attemptID => .sql (by simp) (fun token => .sql (by simp) (fun row => ?_)))
  dsimp only
  split
  · exact .fail
  · exact .sql (by simp) (fun _ => .sql (by simp) (fun _ => .sql (by simp) (fun _ => .done)))

/-- A lease looks at the state of its worker, and nothing else does. -/
theorem workerBody_blind {m : Method} (hm : m = .leaseJob → r.workerID ≠ id) :
    (s.workerBody m r).Blind id := by
  refine .lockWorker (fun row => ?_) (fun hid w state => ?_)
  · cases row with
    | none => exact .fail
    | some w =>
        dsimp only
        split
        · exact .fail
        refine .sql (by simp) (fun _ => ?_)
        cases m with
        | leaseJob =>
            dsimp only
            split
            · exact .fail
            · exact lease_blind
        | releaseWorker => exact .sql (by simp) (fun _ => .done)
        | heartbeat =>
            dsimp only
            split
            · exact .done
            · exact (attempt_quiet s _ r).blind id
        | startAttempt => exact (attempt_quiet s _ r).blind id
        | reportProgress => exact (attempt_quiet s _ r).blind id
        | completeAttempt => exact (attempt_quiet s _ r).blind id
        | failAttempt => exact (attempt_quiet s _ r).blind id
        | registerWorker => exact .fail
        | unknown name => exact .fail
  · cases m with
    | leaseJob => exact absurd hid (hm rfl)
    | _ => rfl

variable [Sha256]

theorem mutate_blind {scope rid : String} {payload : Json} {fn : Prog Response} (hfn : fn.Blind id) :
    (Store.mutate scope rid payload fn).Blind id := by
  unfold Store.mutate
  split
  · exact .fail
  refine .sql (by simp) (fun _ => .sql (by simp) (fun row => ?_))
  split
  · exact .fail
  split
  · exact .fail
  split
  · exact .done
  · exact hfn.bind (fun _ => .sql (by simp) (fun _ => .done))

/-- The operation is a request of the worker for a job. -/
def Op.leasesFor (id : String) : Op → Bool
  | .rpc .leaseJob r => r.workerID = id
  | _ => false

theorem prog_blind {op : Op} (hop : op.leasesFor id = false) : (op.prog s).Blind id := by
  cases op with
  | submit jobs => exact ((submit_client jobs).quiet.blind id).bind (fun _ => .done)
  | reap =>
      exact Prog.Blind.bind (.sql (by simp) (fun _ => (reapLoop_quiet _ _).blind id)) (fun _ => .done)
  | action text a requestID =>
      exact (mutate_blind ((actionBody_client text a requestID).quiet.blind id)).bind (fun _ => .done)
  | rpc m r =>
      refine Prog.Blind.bind ?_ (fun _ => .done)
      unfold Store.rpc
      split
      · exact .fail
      refine mutate_blind ?_
      unfold Store.rpcBody
      split
      · exact registerBody_blind
      · refine workerBody_blind ?_
        rintro rfl
        simpa [Op.leasesFor] using hop

/-- A call that is not the worker's request for a job returns the same whether or not
the worker is draining, and leaves the same tables up to the worker's state. -/
theorem perform_alike {A B : Db} {c : Call} (hc : c.op.leasesFor id = false) (h : Db.Alike id A B) :
    (perform c A).1 = (perform c B).1 ∧ Db.Alike id (perform c A).2 (perform c B).2 := by
  have hrun := (prog_blind (s := c.server) hc).run h c.oracle
  unfold perform
  generalize (c.op.prog c.server).run c.oracle A = x at hrun
  generalize (c.op.prog c.server).run c.oracle B = y at hrun
  cases hrun with
  | ok halike => exact ⟨rfl, halike⟩
  | error => exact ⟨rfl, h⟩

theorem exec_alike {A B : Db} {cs : List Call} (hcs : ∀ c ∈ cs, c.op.leasesFor id = false)
    (h : Db.Alike id A B) : Db.Alike id (exec cs A) (exec cs B) := by
  induction cs generalizing A B with
  | nil => exact h
  | cons c cs ih =>
      exact ih (fun d hd => hcs d (List.mem_cons_of_mem c hd))
        (perform_alike (hcs c List.mem_cons_self) h).2

end Blind

/-! ## Identity and draining -/

/-- The call is a request that the server accepts in `db`. -/
def Call.Accepted [Sha256] (c : Call) (db : Db) (m : Method) (r : Request) : Prop :=
  c.op = .rpc m r ∧ ∃ res, (perform c db).1 = .ok res

/-- Every accepted registration of a worker tells its session and capacity in all
later states, and the worker of every attempt was registered. Every other accepted
request comes after a registration and has the session of all of them. A
registration with another session or capacity is rejected. After an accepted release
the worker stays draining and gets no attempt; a run without requests of the worker
for jobs returns what it returns with the worker active, and leaves the same tables. -/
theorem workers_keep_identity [Sha256] (cs : List Call) (hsha : NoCollision cs) :
    (∀ pre c post r, cs = pre ++ c :: post → c.Accepted (exec pre Db.empty) .registerWorker r →
      ∃ w, (exec cs Db.empty).worker? r.workerID = some w ∧ w.sessionID = r.sessionID ∧
        w.capacity = r.resources) ∧
    (∀ a ∈ (exec cs Db.empty).attempts, ∃ pre c post r, cs = pre ++ c :: post ∧
      c.Accepted (exec pre Db.empty) .registerWorker r ∧ r.workerID = a.workerID) ∧
    (∀ pre c post m r, cs = pre ++ c :: post → m ≠ .registerWorker →
      c.Accepted (exec pre Db.empty) m r →
      (∃ pre' d post' r', pre = pre' ++ d :: post' ∧
        d.Accepted (exec pre' Db.empty) .registerWorker r' ∧ r'.workerID = r.workerID) ∧
      ∀ pre' d post' r', cs = pre' ++ d :: post' →
        d.Accepted (exec pre' Db.empty) .registerWorker r' → r'.workerID = r.workerID →
        r.sessionID = r'.sessionID) ∧
    (∀ pre c post r w, cs = pre ++ c :: post → c.op = .rpc .registerWorker r →
      (exec pre Db.empty).worker? r.workerID = some w →
      w.sessionID ≠ r.sessionID ∨ w.capacity ≠ r.resources →
      ∃ e, perform c (exec pre Db.empty) = (.error e, exec pre Db.empty)) ∧
    (∀ pre c post r, cs = pre ++ c :: post → c.Accepted (exec pre Db.empty) .releaseWorker r →
      (∃ w, (exec cs Db.empty).worker? r.workerID = some w ∧ w.state = .draining) ∧
      (exec cs Db.empty).attemptsBy r.workerID
        = (exec (pre ++ [c]) Db.empty).attemptsBy r.workerID) ∧
    ∀ (id : String) (ds : List Call) (d : Call), (∀ e ∈ ds, e.op.leasesFor id = false) →
      d.op.leasesFor id = false →
      (perform d (exec (cs ++ ds) Db.empty)).1
        = (perform d (exec ds ((exec cs Db.empty).activate id))).1 ∧
      Db.Alike id (perform d (exec (cs ++ ds) Db.empty)).2
        (perform d (exec ds ((exec cs Db.empty).activate id))).2 := by
  have hexec : ∀ {pre c post}, cs = pre ++ c :: post →
      exec cs Db.empty = exec post (exec (pre ++ [c]) Db.empty) := by
    rintro pre c post rfl
    simp only [exec_append]
    rfl
  have hreach : ∀ ds, Reachable (exec ds Db.empty) := fun ds => ⟨ds, rfl⟩
  -- The worker of an accepted request in the final state.
  have hlast : ∀ {pre c post m r}, cs = pre ++ c :: post → c.Accepted (exec pre Db.empty) m r →
      ∃ w, (exec cs Db.empty).worker? r.workerID = some w ∧ w.sessionID = r.sessionID ∧
        (m = .registerWorker → w.capacity = r.resources) := by
    rintro pre c post m r hcs ⟨hop, res, hres⟩
    obtain ⟨w, hw, hsession, hcap, -⟩ := accepted_worker (hsha.part hcs) hop hres
    obtain ⟨w', hw', hsession', hcap'⟩ := exec_worker (hreach _) post hw
    rw [hexec hcs]
    exact ⟨w', hw', hsession'.trans hsession, fun hm => hcap'.trans (hcap hm)⟩
  refine ⟨fun pre c post r hcs hacc => ?_, fun a ha => ?_,
    fun pre c post m r hcs hm hacc => ⟨?_, fun pre' d post' r' hcs' hacc' hid => ?_⟩,
    fun pre c post r w hcs hop hw hne => ?_, fun pre c post r hcs hacc => ?_,
    fun id ds d hds hd => ?_⟩
  · obtain ⟨w, hw, hsession, hcap⟩ := hlast hcs hacc
    exact ⟨w, hw, hsession, hcap rfl⟩
  · have hrow := (exec_sound cs Db.sound_empty).wf.attemptWorker a ha
    obtain ⟨pre, c, post, r, res, hcs, hop, hid, hres⟩ := exec_worker_origin hrow
    exact ⟨pre, c, post, r, hcs, ⟨hop, res, hres⟩, hid⟩
  · obtain ⟨hop, res, hres⟩ := hacc
    obtain ⟨pre', d, post', r', res', rfl, hop', hid, hres'⟩ :=
      exec_worker_origin (accepted_before (hsha.part hcs) hop hm hres)
    exact ⟨pre', d, post', r', rfl, ⟨hop', res', hres'⟩, hid⟩
  · obtain ⟨w, hw, hsession, -⟩ := hlast hcs hacc
    obtain ⟨w', hw', hsession', -⟩ := hlast hcs' hacc'
    rw [hid, hw] at hw'
    obtain rfl := Option.some.inj hw'
    exact hsession.symm.trans hsession'
  · cases hres : (perform c (exec pre Db.empty)).1 with
    | error e => exact ⟨e, Prod.ext hres (perform_transactional _ _ e hres)⟩
    | ok res =>
        obtain ⟨v, hv, hsession, hcap, -⟩ := accepted_worker (hsha.part hcs) hop hres
        obtain ⟨w', hw', hsession', hcap'⟩ := exec_worker (hreach pre) [c] hw
        have hsame : (exec (pre ++ [c]) Db.empty).worker? r.workerID = some w' := by
          simp only [exec_append]
          exact hw'
        rw [hv] at hsame
        obtain rfl := Option.some.inj hsame
        rcases hne with hne | hne
        · exact absurd (hsession'.symm.trans hsession) hne
        · exact absurd (hcap'.symm.trans (hcap rfl)) hne
  · obtain ⟨hop, res, hres⟩ := hacc
    obtain ⟨w, hw, -, -, hdrain⟩ := accepted_worker (hsha.part hcs) hop hres
    rw [hexec hcs]
    exact exec_draining (hreach _) post hw (hdrain rfl)
  · have halike := exec_alike hds (Db.activate_alike (exec cs Db.empty) id).symm
    rw [exec_append]
    exact perform_alike hd halike

/-- A second registration with more memory is rejected. -/
theorem workers_keep_identity_sample :
    ∃ e, @perform Sample.plain ⟨Sample.server, .rpc .registerWorker { Sample.register with
        requestID := "2", resources := ⟨2, 256, 0⟩ }, Sample.oracle 3000⟩
      (@exec Sample.plain [Sample.registerCall] Db.empty)
      = (.error e, @exec Sample.plain [Sample.registerCall] Db.empty) := by
  have hw : (@exec Sample.plain [Sample.registerCall] Db.empty).worker? "w"
      = some (Sample.register.newWorker (Sample.oracle 2000 2)) := by decide +kernel
  exact (@workers_keep_identity Sample.plain [Sample.registerCall, _]
    (fun _ _ _ _ _ _ h => h)).2.2.2.1 [Sample.registerCall] _ [] _ _ rfl rfl hw (.inr (by decide))

end Rungrid
