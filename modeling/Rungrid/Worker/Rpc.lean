-- SUMMARY: The worker's calls with their retries, the local deadline they return, and its distance to the stored lease.
import Rungrid.Lifecycle.Checkpoints
import Rungrid.Lifecycle.Leases

/-!
# Calls of the worker

`worker/python/rungrid_worker/rpc.py`. A call is transmitted until a response
arrives or an error is not worth a retry. Its deadline is counted from the instant
before the first transmission, whichever transmission the response belongs to and
whether the server executed it or replayed a receipt.

The worker's clock is read on the scale of the database's.
-/

namespace Rungrid

open Prog (Runs runs_done)

namespace Worker

/-! ## Calls -/

/-- The status codes the server and the transport answer with. -/
inductive Status where
  | unavailable
  | deadlineExceeded
  | failedPrecondition
  | notFound
  | invalidArgument
  | canceled
  | internal
deriving DecidableEq, Repr

/-- How one transmission ends. -/
inductive Reply where
  | response (res : Response)
  | error (code : Status)

/-- `result["local_deadline"]`, for the responses with a `lease_expires_at`. -/
def localDeadline (started : Time) : Response → Option Time
  | .lease l => some (started + (l.leaseExpiresAt - l.serverTime) - 500000)
  | .renewed leaseExpiresAt serverTime => some (started + (leaseExpiresAt - serverTime) - 500000)
  | _ => none

/-- The deadline is half a second before the lease if the server read its clock after
the call was started. -/
theorem deadline_le {started leaseExpiresAt serverTime : Int} (h : started ≤ serverTime) :
    started + (leaseExpiresAt - serverTime) - 500000 + 500000 ≤ leaseExpiresAt := by
  omega

/-- How a call ends, as far as it has come. -/
inductive CallResult where
  | waiting
  | returned (res : Response) (deadline : Option Time)
  | raised (code : Status)

/-- The loop of `RPC.call`, over the replies to its transmissions and the instants at
which they arrive. `stop` is `end`. -/
def callLoop (started stop : Time) (delay : Int) : List (Time × Reply) → CallResult
  | [] => .waiting
  | (_, .response res) :: _ => .returned res (localDeadline started res)
  | (now, .error code) :: rest =>
      if (code ≠ .unavailable ∧ code ≠ .deadlineExceeded) ∨ stop ≤ now + delay then .raised code
      else callLoop started stop (min (delay * 2) 1000000) rest

/-- An invocation of `RPC.call`: the instant `started`, the time it may take, and the
request, whose id is drawn for it. -/
structure Invocation where
  started : Time
  timeout : Int
  method : Method
  request : Request

namespace Invocation

def op (i : Invocation) : Op := .rpc i.method i.request

/-- `RPC.call`. -/
def call (i : Invocation) (replies : List (Time × Reply)) : CallResult :=
  callLoop i.started (i.started + i.timeout) 100000 replies

/-- In the history `cs` the id of the invocation is used by its own transmissions only,
and these are executed after the instant `started`. -/
def Sent (i : Invocation) (cs : List Call) : Prop :=
  ∀ c ∈ cs, c.op.key = i.op.key → c.op = i.op ∧ ∀ t, c.Reads t → i.started ≤ t

/-- The responses among the replies are those the server gave to transmissions of the
invocation in the history `cs`. Errors may come from anywhere. -/
def Answered [Sha256] (i : Invocation) (cs : List Call) (replies : List (Time × Reply)) : Prop :=
  ∀ t res, (t, .response res) ∈ replies → ∃ pre c post, cs = pre ++ c :: post ∧ c.op = i.op ∧
    (perform c (exec pre Db.empty)).1 = .ok (.response res)

end Invocation

/-- What a call returns was among the replies, with the deadline counted from `started`. -/
theorem callLoop_returned {started stop : Time} {delay : Int} {replies : List (Time × Reply)}
    {res : Response} {deadline : Option Time}
    (h : callLoop started stop delay replies = .returned res deadline) :
    (∃ t, (t, .response res) ∈ replies) ∧ deadline = localDeadline started res := by
  induction replies generalizing delay with
  | nil => cases h
  | cons reply rest ih =>
      obtain ⟨now, reply⟩ := reply
      cases reply with
      | response res' =>
          cases h
          exact ⟨⟨now, List.mem_cons_self⟩, rfl⟩
      | error code =>
          rw [callLoop] at h
          split at h
          · cases h
          · obtain ⟨⟨t, ht⟩, hdeadline⟩ := ih h
            exact ⟨⟨t, List.mem_cons_of_mem _ ht⟩, hdeadline⟩

/-! ## Deadlines -/

/-- The calls of `execute` that set its deadline: the `LeaseJob` that returned the lease,
and the heartbeats so far, each with the replies it has got. -/
structure Execution where
  lease : Lease
  leasing : Invocation × List (Time × Reply)
  heartbeats : List (Invocation × List (Time × Reply))
  leases : leasing.1.method = .leaseJob
  granted : leasing.1.call leasing.2 = .returned (.lease lease) (localDeadline leasing.1.started (.lease lease))
  beats : ∀ x ∈ heartbeats, x.1.method = .heartbeat ∧ x.1.request.attemptID = lease.attemptID.text

namespace Execution

/-- `deadline[0]` after a heartbeat: an exception leaves it as it was. -/
def renew (deadline : Time) : CallResult → Time
  | .returned _ (some d) => d
  | _ => deadline

/-- `deadline[0]`. -/
def deadline (e : Execution) : Time :=
  (e.heartbeats.map (fun x => x.1.call x.2)).foldl renew
    (e.leasing.1.started + (e.lease.leaseExpiresAt - e.lease.serverTime) - 500000)

/-- The calls of the execution take place in the history `cs`. -/
structure In [Sha256] (e : Execution) (cs : List Call) : Prop where
  leasing : e.leasing.1.Sent cs ∧ e.leasing.1.Answered cs e.leasing.2
  heartbeats : ∀ x ∈ e.heartbeats, x.1.Sent cs ∧ x.1.Answered cs x.2

/-- The deadline is that of the lease or of a heartbeat that returned. -/
theorem deadline_cases (e : Execution) :
    (∃ x, x = e.leasing ∧ x.1.call x.2 = .returned (.lease e.lease) (some e.deadline)) ∨
      ∃ x ∈ e.heartbeats, ∃ res, x.1.call x.2 = .returned res (some e.deadline) := by
  have hfold : ∀ (xs : List (Invocation × List (Time × Reply))) (d : Time),
      (xs.map (fun x => x.1.call x.2)).foldl renew d = d ∨
        ∃ x ∈ xs, ∃ res, x.1.call x.2
          = .returned res (some ((xs.map (fun x => x.1.call x.2)).foldl renew d)) := by
    intro xs
    induction xs with
    | nil => exact fun d => .inl rfl
    | cons x xs ih =>
        intro d
        rcases ih (renew d (x.1.call x.2)) with heq | ⟨y, hy, hres⟩
        · rw [List.map_cons, List.foldl_cons, heq]
          cases hcall : x.1.call x.2 with
          | waiting => exact .inl rfl
          | raised code => exact .inl rfl
          | returned res deadline =>
              cases deadline with
              | none => exact .inl rfl
              | some d' => exact .inr ⟨x, List.mem_cons_self, res, hcall⟩
        · exact .inr ⟨y, List.mem_cons_of_mem x hy, hres⟩
  rcases hfold e.heartbeats _ with heq | hbeat
  · refine .inl ⟨e.leasing, rfl, ?_⟩
    rw [deadline, heq]
    exact e.granted
  · exact .inr hbeat

end Execution

end Worker

/-! ## Executed calls -/

section Executed

variable [Sha256] {P : Oracle → Prop} {db db' : Db} {c : Call} {r : Request}

/-- A heartbeat that is executed answers with the renewed lease. -/
theorem perform_renewal {id : Uuid} {res : Response} (hop : c.op = .rpc .heartbeat r)
    (hP : ∀ n, P (c.oracle n)) (hdb : db.Sound) (hid : Uuid.parse r.attemptID = some id)
    (hfresh : db.request? (Store.rpcScope .heartbeat r) r.requestID = none)
    (h : perform c db = (.ok (.response res), db')) :
    ∃ a o, P o ∧ db'.attempt? id = some a ∧ res = .renewed a.leaseExpiresAt (o.clock 1) := by
  obtain ⟨response, rs, rs', mid, hresp, hbody, rfl⟩ := perform_body hop hP hdb hfresh h
  cases hresp
  obtain ⟨w, _, -, hattempt⟩ := rpcBody_attempt rfl (fun _ => Request.attemptID_ne hid) hbody
  obtain ⟨a, j, _, hf, hrenew⟩ := attempt_fenced hattempt
  obtain rfl := Option.some.inj (hf.named.symm.trans hid)
  obtain ⟨o, ho, hdone⟩ := runs_total (fun _ => rfl) hrenew
  simp only [reread_self, hf.attempt, Option.map_some, updateRow_some] at hdone
  obtain ⟨rfl, rfl⟩ := runs_done.mp hdone
  exact ⟨_, o, ho, Db.attempt?_putAttempt hf.attempt rfl, rfl⟩

end Executed

/-! ## Stored deadlines -/

section Deadlines

variable [Sha256] {duration : Int} {cs : List Call}

/-- The response of an executed transmission, and the lease it leaves in the database.
All readings of the transmission are after `started`. -/
theorem Worker.Invocation.executed {i : Worker.Invocation} {db db' : Db} {c : Call} {res : Response}
    {id : Uuid} {d : Time} (hdb : db.Sound) (hop : c.op = i.op)
    (hreads : ∀ t, c.Reads t → i.started ≤ t)
    (hnames : (i.method = .leaseJob ∧ ∃ l, res = .lease l ∧ l.attemptID = id) ∨
      (i.method = .heartbeat ∧ Uuid.parse i.request.attemptID = some id))
    (hfresh : db.request? (Store.rpcScope i.method i.request) i.request.requestID = none)
    (h : perform c db = (.ok (.response res), db'))
    (hd : Worker.localDeadline i.started res = some d) :
    ∃ a, db'.attempt? id = some a ∧ d + 500000 ≤ a.leaseExpiresAt := by
  have hP : ∀ n, ∀ k, i.started ≤ (c.oracle n).clock k := fun n k => hreads _ ⟨n, k, rfl⟩
  rcases hnames with ⟨hm, l, rfl, rfl⟩ | ⟨hm, hid⟩
  · rw [Worker.Invocation.op, hm] at hop
    rw [hm] at hfresh
    obtain ⟨_, _, _, rs, mid, -, -, hgrant, rfl⟩ := perform_lease
      (P := fun o => ∀ k, i.started ≤ o.clock k) hop hP hdb hfresh h
    obtain ⟨a, o, ho, ha, -, -, hlease, hnow⟩ := hgrant.stored
    refine ⟨a, ha, ?_⟩
    cases hd
    rw [hlease, hnow]
    exact Worker.deadline_le (ho 3)
  · rw [Worker.Invocation.op, hm] at hop
    rw [hm] at hfresh
    obtain ⟨a, o, ho, ha, rfl⟩ := perform_renewal
      (P := fun o => ∀ k, i.started ≤ o.clock k) hop hP hdb hid hfresh h
    refine ⟨a, ha, ?_⟩
    cases hd
    exact Worker.deadline_le (ho 1)

/-- A response the worker receives, executed or replayed, names a deadline that the
lease stored after the history does not undercut. -/
theorem Worker.Invocation.deadline {i : Worker.Invocation} {replies : List (Time × Worker.Reply)}
    {t : Time} {res : Response} {id : Uuid} {d : Time}
    (hservers : ∀ c ∈ cs, c.server.leaseSeconds = duration) (hclock : ClockForward cs)
    (hsent : i.Sent cs) (hanswered : i.Answered cs replies) (hmem : (t, .response res) ∈ replies)
    (hnames : (i.method = .leaseJob ∧ ∃ l, res = .lease l ∧ l.attemptID = id) ∨
      (i.method = .heartbeat ∧ Uuid.parse i.request.attemptID = some id))
    (hd : Worker.localDeadline i.started res = some d) :
    ∃ a, (exec cs Db.empty).attempt? id = some a ∧ d + 500000 ≤ a.leaseExpiresAt := by
  obtain ⟨pre, c, post, rfl, hop, hres⟩ := hanswered t res hmem
  have hkey : c.op.key = some (Store.rpcScope i.method i.request, i.request.requestID) := by
    rw [hop]
    rfl
  -- The transmission that was executed need not be the one that was answered.
  obtain ⟨pre', e, post', hsplit, hekey, hfresh, heres⟩ := response_origin hkey hres
  have hhistory : pre ++ c :: post = pre' ++ [e] ++ (post' ++ post) := by
    rw [← List.singleton_append, ← List.append_assoc, hsplit]
    simp
  obtain ⟨heop, hreads⟩ := hsent e (by rw [hhistory]; simp) hekey
  rw [hhistory] at hservers hclock ⊢
  obtain ⟨a, ha, hle⟩ := Worker.Invocation.executed (exec_sound pre' Db.sound_empty) heop hreads hnames
    hfresh (Prod.ext heres rfl : perform e (exec pre' Db.empty)
      = (.ok (.response res), (perform e (exec pre' Db.empty)).2)) hd
  rw [← exec_concat] at ha
  obtain ⟨b, hb, hab⟩ := exec_leasesGrow (post' ++ post) hservers hclock id a ha
  exact ⟨b, hb, hle.trans hab⟩

end Deadlines

/-- In a history with one lease duration whose clock does not go backwards, the lease
of the attempt is at least half a second after the deadline the worker has stored, and
an attempt that has expired was expired that late at the earliest. -/
theorem deadlines_conservative [Sha256] (duration : Int) (cs : List Call)
    (hservers : ∀ c ∈ cs, c.server.leaseSeconds = duration) (hclock : ClockForward cs)
    (e : Worker.Execution) (he : e.In cs) :
    ∃ a, (exec cs Db.empty).attempt? e.lease.attemptID = some a ∧
      e.deadline + 500000 ≤ a.leaseExpiresAt ∧
      (a.state = .expired → ∃ c ∈ cs, ∃ t, c.Reads t ∧ e.deadline + 500000 ≤ t) := by
  have hstored : ∃ a, (exec cs Db.empty).attempt? e.lease.attemptID = some a ∧
      e.deadline + 500000 ≤ a.leaseExpiresAt := by
    rcases e.deadline_cases with ⟨x, rfl, hcall⟩ | ⟨x, hx, res, hcall⟩
    · obtain ⟨⟨t, hmem⟩, hd⟩ := Worker.callLoop_returned hcall
      exact Worker.Invocation.deadline hservers hclock he.leasing.1 he.leasing.2 hmem
        (.inl ⟨e.leases, e.lease, rfl, rfl⟩) hd.symm
    · obtain ⟨⟨t, hmem⟩, hd⟩ := Worker.callLoop_returned hcall
      obtain ⟨hsent, hanswered⟩ := he.heartbeats x hx
      obtain ⟨hm, hid⟩ := e.beats x hx
      exact Worker.Invocation.deadline hservers hclock hsent hanswered hmem
        (.inr ⟨hm, by rw [hid, Uuid.parse_text]⟩) hd.symm
  obtain ⟨a, ha, hle⟩ := hstored
  refine ⟨a, ha, hle, fun hexp => ?_⟩
  obtain ⟨c, hc, t, ht, hlate⟩ := exec_expired cs a (Db.mem_of_attempt? ha) hexp
  exact ⟨c, hc, t, ht, hle.trans hlate⟩

namespace Sample

/-- The `LeaseJob` of the sample run. -/
def leasing : Worker.Invocation × List (Time × Worker.Reply) :=
  (⟨3000, 5000000, .leaseJob, { register with requestID := "2" }⟩, [(4000, .response (.lease lease))])

/-- A heartbeat whose response is lost. -/
def heartbeat : Worker.Invocation × List (Time × Worker.Reply) :=
  (⟨5000, 2000000, .heartbeat, request "5"⟩, [(2005000, .error .unavailable)])

def execution : Worker.Execution where
  lease := lease
  leasing := leasing
  heartbeats := [heartbeat]
  leases := rfl
  granted := rfl
  beats := by simp only [List.forall_mem_singleton]; exact ⟨rfl, rfl⟩

/-- The sample run, followed by the heartbeat on the server `s`. -/
def beaten (s : Store) : List Call := leased ++ [⟨s, .rpc .heartbeat (request "5"), oracle 5000⟩]

theorem beaten_forward (s : Store) : ClockForward (beaten s) :=
  clockForward [(server, submitCall.op, 1000), (server, registerCall.op, 2000),
    (server, leaseCall.op, 3000), (s, .rpc .heartbeat (request "5"), 5000)] (by simp)

theorem beaten_sent (s : Store) {i : Worker.Invocation} (h : i = leasing.1 ∨ i = heartbeat.1) :
    i.Sent (beaten s) := by
  intro c hc hkey
  simp only [beaten, leased, List.cons_append, List.nil_append, List.mem_cons, List.not_mem_nil,
    or_false] at hc
  rcases h with rfl | rfl
  · rcases hc with rfl | rfl | rfl | rfl
    · exact absurd hkey (by decide)
    · exact absurd hkey (by decide)
    · exact ⟨rfl, fun t ht => (reads ht).1⟩
    · have hbeat : heartbeat.1.op.key = leasing.1.op.key := hkey
      exact absurd hbeat (by decide)
  · rcases hc with rfl | rfl | rfl | rfl
    · exact absurd hkey (by decide)
    · exact absurd hkey (by decide)
    · exact absurd hkey (by decide)
    · exact ⟨rfl, fun t ht => (reads ht).1⟩

theorem execution_in (s : Store) : @Worker.Execution.In digest execution (beaten s) := by
  have hanswered : @Worker.Invocation.Answered digest leasing.1 (beaten s) leasing.2 := by
    intro t res hmem
    have hres : res = .lease lease := by
      simp only [leasing, List.mem_singleton, Prod.mk.injEq, Worker.Reply.response.injEq] at hmem
      exact hmem.2
    subst hres
    exact ⟨[submitCall, registerCall], leaseCall, _, rfl, rfl, by decide +kernel⟩
  refine @Worker.Execution.In.mk digest _ _ ⟨beaten_sent s (.inl rfl), hanswered⟩ ?_
  intro x hx
  obtain rfl := List.mem_singleton.mp hx
  exact ⟨beaten_sent s (.inr rfl), fun t res hmem => by simp [heartbeat] at hmem⟩

end Sample

theorem deadlines_conservative_sample :
    ∃ a, (@exec Sample.digest (Sample.beaten Sample.server) Db.empty).attempt? Sample.attemptID = some a ∧
      Sample.execution.deadline + 500000 ≤ a.leaseExpiresAt ∧
      (a.state = .expired → ∃ c ∈ Sample.beaten Sample.server, ∃ t, c.Reads t ∧
        Sample.execution.deadline + 500000 ≤ t) :=
  @deadlines_conservative Sample.digest 5 (Sample.beaten Sample.server)
    (by simp [Sample.beaten, Sample.leased, Sample.submitCall, Sample.registerCall, Sample.leaseCall,
      Sample.server])
    (Sample.beaten_forward _) Sample.execution (Sample.execution_in _)

/-- A heartbeat that is executed by a server with a lease of two seconds shortens the
lease of five seconds, and the worker that does not get the response keeps a deadline
after the lease. -/
theorem shorter_lease_undercuts_deadline :
    ClockForward (Sample.beaten ⟨2, by decide⟩) ∧
      @Worker.Execution.In Sample.digest Sample.execution (Sample.beaten ⟨2, by decide⟩) ∧
      ∃ a, (@exec Sample.digest (Sample.beaten ⟨2, by decide⟩) Db.empty).attempt?
          Sample.execution.lease.attemptID = some a ∧ a.state.active = true ∧
        a.leaseExpiresAt < Sample.execution.deadline := by
  refine ⟨Sample.beaten_forward _, Sample.execution_in _, ?_⟩
  have hexec : @exec Sample.digest (Sample.beaten ⟨2, by decide⟩) Db.empty
      = (@perform Sample.digest ⟨⟨2, by decide⟩, .rpc .heartbeat (Sample.request "5"),
        Sample.oracle 5000⟩ Sample.leasedDb).2 := by
    rw [Sample.beaten, @exec_concat Sample.digest, Sample.leased_exec]
  rw [hexec]
  exact ⟨{ Sample.attempt with leaseExpiresAt := 2005070 }, by decide +kernel, rfl, by decide +kernel⟩

end Rungrid
