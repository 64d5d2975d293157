-- SUMMARY: The renew loop and the local deadline: when a lost lease is noticed, and when a new lease is still alive.
import Rungrid.Api.Polling

/-!
# Timing of leases in the worker

`renew` in `execute` looks at the deadline every half second, and a heartbeat in
between can take `min(2, max(0.1, remaining))` seconds. The other way round, the
deadline of a new lease is counted from before the long poll in which it was granted.

Times of the loop are in milliseconds, those of leases in microseconds.
-/

namespace Rungrid

namespace Worker

/-! ## The renew loop -/

/-- How a heartbeat ends: with a deadline, or with an exception that may set `lost`. -/
inductive BeatEnd where
  | returned (deadline : Int)
  | raised (lost : Bool)

/-- A heartbeat and the time it takes. -/
structure Beat where
  lasts : Int
  ends : BeatEnd

/-- The state in which `renew` calls `alive()`. -/
structure Renewal where
  now : Int
  deadline : Int
  lost : Bool

namespace Renewal

/-- `alive()`. -/
def alive (σ : Renewal) : Bool := !σ.lost && decide (σ.now < σ.deadline)

/-- The timeout of the heartbeat. -/
def timeout (σ : Renewal) : Int := min 2000 (max 100 (σ.deadline - σ.now))

/-- The heartbeat, and the `done.wait(0.5)` after it. -/
def beat (σ : Renewal) (b : Beat) : Renewal :=
  match b.ends with
  | .returned deadline => ⟨σ.now + b.lasts + 500, deadline, σ.lost⟩
  | .raised lost => ⟨σ.now + b.lasts + 500, σ.deadline, σ.lost || lost⟩

/-- The heartbeat keeps to its timeout and does not extend the deadline. -/
structure Admits (σ : Renewal) (b : Beat) : Prop where
  lasts : 0 ≤ b.lasts ∧ b.lasts ≤ σ.timeout
  deadline : ∀ d, b.ends = .returned d → d ≤ σ.deadline

variable {σ : Renewal} {b : Beat}

@[simp] theorem beat_now (σ : Renewal) (b : Beat) : (σ.beat b).now = σ.now + b.lasts + 500 := by
  unfold beat
  split <;> rfl

theorem Admits.beat_deadline (h : σ.Admits b) : (σ.beat b).deadline ≤ σ.deadline := by
  unfold beat
  split
  · rename_i d hd
    exact h.deadline d hd
  · exact Int.le_refl _

theorem alive_lt (h : σ.alive = true) : σ.now < σ.deadline := by
  simp only [alive, Bool.and_eq_true, decide_eq_true_eq] at h
  exact h.2

end Renewal

/-- A run of `renew` that enters its first wait at the instant `start`. -/
structure RenewLoop where
  start : Int
  deadline : Int
  beats : Nat → Beat
  entered : start ≤ deadline

namespace RenewLoop

/-- The state at the check with the index `k`. -/
def check (l : RenewLoop) : Nat → Renewal
  | 0 => ⟨l.start + 500, l.deadline, false⟩
  | k + 1 => (l.check k).beat (l.beats k)

/-- The checks before the index `k` have found the lease alive. -/
def Made (l : RenewLoop) (k : Nat) : Prop := ∀ j < k, (l.check j).alive = true

/-- `kill_group` is called at the check after `n` heartbeats. -/
def KilledAfter (l : RenewLoop) (n : Nat) : Prop := l.Made n ∧ (l.check n).alive = false

/-- The heartbeats of the run are admitted. -/
def Admitted (l : RenewLoop) : Prop := ∀ k, l.Made (k + 1) → (l.check k).Admits (l.beats k)

/-- `deadline[0]` after `n` heartbeats: what the last of them returned that did not raise. -/
def held (l : RenewLoop) : Nat → Int
  | 0 => l.deadline
  | n + 1 => match (l.beats n).ends with
    | .returned deadline => deadline
    | .raised _ => l.held n

/-- The instant of the check after `n` heartbeats. -/
def instant (l : RenewLoop) : Nat → Int
  | 0 => l.start + 500
  | n + 1 => l.instant n + (l.beats n).lasts + 500

/-- The instant at which the heartbeat with the index `k` returns or raises. -/
def ended (l : RenewLoop) (k : Nat) : Int := l.instant k + (l.beats k).lasts

variable {l : RenewLoop} {k n : Nat}

@[simp] theorem check_deadline (l : RenewLoop) (n : Nat) : (l.check n).deadline = l.held n := by
  induction n with
  | zero => rfl
  | succ n ih =>
      rw [check, held, Renewal.beat]
      split <;> simp [ih]

@[simp] theorem check_now (l : RenewLoop) (n : Nat) : (l.check n).now = l.instant n := by
  induction n with
  | zero => rfl
  | succ n ih => rw [check, instant, Renewal.beat_now, ih]

theorem Made.of_succ (h : l.Made (k + 1)) : l.Made k := fun j hj => h j (Nat.lt_succ_of_lt hj)

/-- A heartbeat is begun before the deadline. -/
theorem Made.begun (h : l.Made (k + 1)) : l.instant k < l.held k := by
  rw [← check_now, ← check_deadline]
  exact Renewal.alive_lt (h k (Nat.lt_succ_self k))

/-- A heartbeat does not extend the deadline and keeps to its timeout. -/
theorem Admitted.step (h : l.Admitted) (hk : l.Made (k + 1)) :
    l.held (k + 1) ≤ l.held k ∧ 0 ≤ (l.beats k).lasts ∧
      (l.beats k).lasts ≤ min 2000 (max 100 (l.held k - l.instant k)) := by
  have hadmits := h k hk
  have hdeadline := hadmits.beat_deadline
  have hlasts := hadmits.lasts
  rw [← check, check_deadline, check_deadline] at hdeadline
  rw [Renewal.timeout, check_deadline, check_now] at hlasts
  exact ⟨hdeadline, hlasts⟩

/-- The deadline never exceeds the one the loop began with, and each check is at least
half a second after the one before it. -/
theorem Admitted.bounds (h : l.Admitted) (hk : l.Made k) :
    l.held k ≤ l.deadline ∧ l.start + 500 * (k + 1) ≤ l.instant k := by
  induction k with
  | zero => exact ⟨Int.le_refl _, by simp [instant]⟩
  | succ k ih =>
      obtain ⟨hdeadline, hnow⟩ := ih hk.of_succ
      obtain ⟨hstep, hlasts, -⟩ := h.step hk
      refine ⟨hstep.trans hdeadline, ?_⟩
      rw [instant]
      push_cast
      omega

/-- The loop ends. -/
theorem Admitted.killed (h : l.Admitted) : ∃ n, l.KilledAfter n := by
  by_contra hno
  have hmade : ∀ k, l.Made k := by
    intro k
    induction k with
    | zero => exact fun j hj => absurd hj (Nat.not_lt_zero j)
    | succ k ih =>
        intro j hj
        rcases Nat.lt_succ_iff_lt_or_eq.mp hj with hlt | rfl
        · exact ih j hlt
        · rw [← Bool.not_eq_false]
          exact fun hdead => hno ⟨j, ih, hdead⟩
  -- After as many checks as there are milliseconds left the deadline has passed.
  let n := (l.deadline - l.start).toNat
  obtain ⟨hdeadline, hnow⟩ := h.bounds (hmade n)
  have hbegun := (hmade (n + 1)).begun
  omega

/-- A heartbeat after which the lease is found alive has ended by the deadline. -/
theorem Made.ended (h : l.Made (k + 2)) : l.ended k ≤ l.held (k + 1) := by
  have hbegun := h.begun
  rw [instant] at hbegun
  rw [RenewLoop.ended]
  omega

/-- A heartbeat ends less than a tenth of a second after the deadline it was begun under. -/
theorem Admitted.ended_lt (h : l.Admitted) (hk : l.Made (k + 1)) : l.ended k < l.held k + 100 := by
  have hbegun := hk.begun
  obtain ⟨-, -, hlasts⟩ := h.step hk
  rw [RenewLoop.ended]
  omega

end RenewLoop

end Worker

/-- The processes of a lost lease are killed, and within half a second of the deadline
that is then held exactly if every heartbeat has ended by the deadline it leaves. -/
theorem kill_margin_iff (l : Worker.RenewLoop) (h : l.Admitted) :
    ∃ n, l.KilledAfter n ∧
      (l.instant n ≤ l.held n + 500 ↔ ∀ k < n, l.ended k ≤ l.held (k + 1)) ∧
      l.instant n < l.deadline + 600 := by
  obtain ⟨n, hn⟩ := h.killed
  refine ⟨n, hn, ?_⟩
  cases n with
  | zero =>
      have hentered := l.entered
      have hiff : l.start + 500 ≤ l.deadline + 500 ↔
          ∀ k < 0, l.ended k ≤ l.held (k + 1) :=
        ⟨fun _ k hk => absurd hk (Nat.not_lt_zero k), fun _ => by omega⟩
      have hlt : l.start + 500 < l.deadline + 600 := by omega
      exact ⟨hiff, hlt⟩
  | succ n =>
      have hinstant : l.instant (n + 1) = l.ended n + 500 := rfl
      refine ⟨⟨fun hle k hk => ?_, fun hall => ?_⟩, ?_⟩
      · -- Only the last heartbeat can have ended late.
        rcases Nat.lt_succ_iff_lt_or_eq.mp hk with hlt | rfl
        · exact Worker.RenewLoop.Made.ended (fun j hj => hn.1 j (by omega))
        · omega
      · have hlast := hall n (Nat.lt_succ_self n)
        omega
      · have hend := h.ended_lt hn.1
        have hheld := (h.bounds hn.1.of_succ).1
        omega

namespace Sample

/-- A loop whose first heartbeat shortens the deadline and whose later ones fail. -/
def shortened : Worker.RenewLoop where
  start := 0
  deadline := 10000
  beats
    | 0 => ⟨100, .returned 1300⟩
    | _ + 1 => ⟨200, .raised false⟩
  entered := by decide

theorem shortened_admitted : shortened.Admitted := by
  intro k hk
  rcases k with _ | _ | k
  · exact ⟨by decide, fun d hd => by cases hd; decide⟩
  · exact ⟨by decide, fun d hd => by cases hd⟩
  · exact absurd (hk 2 (by omega)) (by decide)

/-- A loop whose heartbeats all fail after the given time. -/
def lonely (deadline lasts : Int) (h : 0 ≤ deadline) : Worker.RenewLoop :=
  ⟨0, deadline, fun _ => ⟨lasts, .raised false⟩, h⟩

/-- The loop is admitted if its second check finds the lease lost. -/
theorem lonely_admitted {deadline lasts : Int} {h : 0 ≤ deadline}
    (hdead : ((lonely deadline lasts h).check 1).alive = false)
    (hlasts : 0 ≤ lasts ∧ lasts ≤ ((lonely deadline lasts h).check 0).timeout) :
    (lonely deadline lasts h).Admitted := by
  intro k hk
  cases k with
  | zero => exact ⟨hlasts, fun d hd => by cases hd⟩
  | succ k =>
      have halive := hk 1 (by omega)
      rw [hdead] at halive
      cases halive

end Sample

/-- The second heartbeat fails at the deadline of 1300 ms that the first one returned, and
the kill comes at 1800 ms. -/
theorem kill_margin_sample :
    ∃ n, Sample.shortened.KilledAfter n ∧ Sample.shortened.instant n ≤ Sample.shortened.held n + 500 := by
  obtain ⟨n, hn, hiff, -⟩ := kill_margin_iff Sample.shortened Sample.shortened_admitted
  refine ⟨n, hn, hiff.mpr (fun k hk => ?_)⟩
  rcases k with _ | _ | k
  · decide
  · decide
  · exact absurd (hn.1 2 (by omega)) (by decide)

/-- With 1 ms left at the first check the heartbeat may take 100 ms, and the kill comes
600 ms after the check, 99 ms too late. -/
theorem kill_after_lease_expiry :
    (Sample.lonely 501 100 (by decide)).Admitted ∧
      (Sample.lonely 501 100 (by decide)).KilledAfter 1 ∧
      (Sample.lonely 501 100 (by decide)).held 1 = 501 ∧
      (Sample.lonely 501 100 (by decide)).instant 1 = 1100 ∧
      ¬ (Sample.lonely 501 100 (by decide)).instant 1
        ≤ (Sample.lonely 501 100 (by decide)).held 1 + 500 := by
  refine ⟨Sample.lonely_admitted (by decide) (by decide), ⟨fun j hj => ?_, by decide⟩, rfl, rfl,
    by decide⟩
  rw [Nat.lt_one_iff.mp hj]
  decide

/-! ## The long poll -/

namespace Worker

/-- The loop of `WorkerServer.call`: the milliseconds after which `LeaseJob` is executed,
with `ticks` ticks left at the instant `now`, if the job is queued from `available` on. -/
def poll (available : Int) : Nat → Int → Int
  | 0, now => now
  | ticks + 1, now => if available ≤ now then now else poll available ticks (now + 200)

/-- `wait_seconds=2`, with a tick each 200 ms. -/
def longPoll (available : Int) : Int := poll available 10 0

/-- Within the two seconds the job is leased at the next multiple of 200 ms. -/
theorem poll_eq {available now : Int} {ticks : Nat} (h : available ≤ now + 200 * ticks)
    (hnow : now - 200 < available) (hmult : now % 200 = 0) :
    poll available ticks now = 200 * ((available + 199) / 200) := by
  induction ticks generalizing now with
  | zero =>
      rw [poll]
      omega
  | succ ticks ih =>
      rw [poll]
      split
      · omega
      · exact ih (by push_cast at h; omega) (by omega) (by omega)

theorem longPoll_eq {available : Int} (hpos : 0 ≤ available) (h : available ≤ 2000) :
    longPoll available = 200 * ((available + 199) / 200) :=
  poll_eq (by simpa using h) (by omega) (by decide)

/-- The loop passes a tick for each state in which the query of the long poll finds
nothing. -/
theorem poll_passed [Sha256] {r : Request} {available now : Int} (dss : List (List Call)) (db : Db)
    (h : ∀ k < dss.length,
      Grpc.pollQuery (exec (dss.take k).flatten db) r = decide (available ≤ now + 200 * k)) :
    poll available dss.length now = now + 200 * (Grpc.passed r dss db).length := by
  induction dss generalizing db now with
  | nil => simp [poll, Grpc.passed]
  | cons ds dss ih =>
      have hfirst : Grpc.pollQuery db r = decide (available ≤ now) := by simpa using h 0 (by simp)
      rw [List.length_cons, poll, Grpc.passed, hfirst]
      by_cases hdue : available ≤ now
      · simp [hdue]
      · have hrest : poll available dss.length (now + 200)
            = now + 200 + 200 * (Grpc.passed r dss (exec ds db)).length := ih (exec ds db) (fun k hk => by
          have hnext := h (k + 1) (by simpa using hk)
          rw [List.take_succ_cons, List.flatten_cons, exec_append] at hnext
          rw [hnext]
          push_cast
          congr 2
          omega)
        simp only [hdue, decide_false, Bool.false_eq_true, if_false, List.length_cons, hrest]
        push_cast
        omega

/-- The two seconds are ten ticks of the server's wait. -/
theorem longPoll_passed [Sha256] {r : Request} {available : Int} {dss : List (List Call)} {db : Db}
    (hticks : dss.length = 10) (h : ∀ k < dss.length,
      Grpc.pollQuery (exec (dss.take k).flatten db) r = decide (available ≤ 200 * k)) :
    longPoll available = 200 * (Grpc.passed r dss db).length := by
  have hpoll : poll available dss.length 0 = 0 + 200 * (Grpc.passed r dss db).length :=
    poll_passed dss db (fun k hk => by simpa using h k hk)
  rw [hticks, Int.zero_add] at hpoll
  exact hpoll

end Worker

/-- What a lease is worth at the reading of the clock that is sent with it. -/
theorem Granted.ttl {P : Oracle → Prop} {s : Store} {db db' : Db} {r : Request} {cap : Resources}
    {l : Lease} (h : Granted P s db r cap l db') : ∃ o, P o ∧
      l.leaseExpiresAt - l.serverTime
        = o.clock 0 - o.clock 3 + seconds (min s.leaseSeconds l.job.definition.timeoutSeconds) := by
  cases h with
  | @mk j id token o oj oe _ _ _ _ ho _ _ =>
      refine ⟨o, ho, ?_⟩
      have harith : ∀ a b c : Int, a + c - b = a - b + c := by
        intro a b c
        omega
      exact harith _ _ _

/-- A lease that is granted in a long poll, at one instant and received at that instant,
is alive on receipt exactly if the poll took half a second less than the lease lasts. -/
theorem polled_lease_alive_iff [Sha256] (db : Db) (hdb : Reachable db) (c : Call) (r : Request)
    (hop : c.op = .rpc .leaseJob r) (l : Lease) (happ : c.applied db = true)
    (hres : (perform c db).1 = .ok (.response (.lease l))) (started : Time) (available : Int)
    (hpos : 0 ≤ available) (hpoll : available ≤ 2000)
    (hclock : ∀ n i, (c.oracle n).clock i = started + 1000 * Worker.longPoll available) :
    (∃ deadline, Worker.localDeadline started (.lease l) = some deadline ∧
      started + 1000 * Worker.longPoll available < deadline) ↔
    200 * ((available + 199) / 200) + 500
      < 1000 * min c.server.leaseSeconds l.job.definition.timeoutSeconds := by
  obtain ⟨_, -, hfresh⟩ := Call.applied_ok happ
  have hnone : db.request? (Store.rpcScope .leaseJob r) r.requestID = none := by
    simpa [Op.fresh, hop, Op.key] using hfresh
  obtain ⟨w, o, rs, rs', mid, -, -, hgrant, -⟩ := perform_lease (P := fun o => ∃ n, o = c.oracle n) hop
    (fun n => ⟨n, rfl⟩) hdb.logged.1 hnone
    (Prod.ext hres rfl : perform c db = (.ok (.response (.lease l)), (perform c db).2))
  obtain ⟨_, ⟨n, rfl⟩, httl⟩ := hgrant.ttl
  rw [hclock, hclock, Worker.longPoll_eq hpos hpoll] at httl
  rw [Worker.longPoll_eq hpos hpoll]
  simp only [Worker.localDeadline, Option.some.injEq, exists_eq_left', httl, seconds]
  generalize min c.server.leaseSeconds l.job.definition.timeoutSeconds = m
  generalize 200 * ((available + 199) / 200) = p
  have harith : ∀ started p m : Int, started + 1000 * p <
      started + (started + 1000 * p - (started + 1000 * p) + m * 1000000) - 500000 ↔ p + 500 < 1000 * m := by
    intro started p m
    omega
  exact harith started p m

namespace Sample

/-- The worker asks at the instant 0, and the server `s` answers when it finds a job. -/
def polled (s : Store) (available : Int) : Call :=
  ⟨s, leaseCall.op, fun n => ⟨fun _ => 1000 * Worker.longPoll available, BitVec.ofNat 128 n, 0, fun _ => false⟩⟩

/-- The lease the worker gets. -/
def polledLease (leaseSeconds available : Int) : Lease :=
  { lease with
    attemptID := Uuid.ID 6
    leaseToken := Uuid.ID 7
    leaseExpiresAt := 1000 * Worker.longPoll available + seconds leaseSeconds
    serverTime := 1000 * Worker.longPoll available }

theorem polled_lease : ∀ x ∈ [((⟨5, by decide⟩ : Store), (1800 : Int)), (⟨2, by decide⟩, 1500)],
    (@perform digest (polled x.1 x.2) (@exec digest (leased.take 2) Db.empty)).1
        = .ok (.response (.lease (polledLease x.1.leaseSeconds x.2))) ∧
      @Call.applied digest (polled x.1 x.2) (@exec digest (leased.take 2) Db.empty) = true := by
  decide +kernel

end Sample

/-- A lease of five seconds that is granted after 1.8 seconds is alive. -/
theorem polled_lease_alive_sample : ∃ deadline,
    Worker.localDeadline 0 (.lease (Sample.polledLease 5 1800)) = some deadline ∧
      0 + 1000 * Worker.longPoll 1800 < deadline := by
  obtain ⟨hres, happ⟩ := Sample.polled_lease (⟨5, by decide⟩, 1800) (by simp)
  exact (@polled_lease_alive_iff Sample.digest _ ⟨Sample.leased.take 2, rfl⟩
    (Sample.polled ⟨5, by decide⟩ 1800) _ rfl _ happ hres 0 1800 (by decide) (by decide)
    (fun _ _ => (Int.zero_add _).symm)).mpr (by decide)

/-- A server may grant leases of two seconds. A job that is queued 1.5 seconds after the
worker has asked is leased after 1.6 seconds, and the lease is dead on receipt. -/
theorem polled_lease_dead :
    (@perform Sample.digest (Sample.polled ⟨2, by decide⟩ 1500)
      (@exec Sample.digest (Sample.leased.take 2) Db.empty)).1
        = .ok (.response (.lease (Sample.polledLease 2 1500))) ∧
    ¬ ∃ deadline, Worker.localDeadline 0 (.lease (Sample.polledLease 2 1500)) = some deadline ∧
      0 + 1000 * Worker.longPoll 1500 < deadline := by
  refine ⟨(Sample.polled_lease (⟨2, by decide⟩, 1500) (by simp)).1, ?_⟩
  rintro ⟨deadline, hdeadline, hlt⟩
  obtain rfl : (1600000 + 2000000 - 1600000) - 500000 = deadline := Option.some.inj hdeadline
  exact absurd hlt (by decide)

end Rungrid
