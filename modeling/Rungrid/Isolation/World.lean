-- SUMMARY: Concurrent transactions statement by statement, under READ COMMITTED with locks held to the commit.
import Rungrid.Store.System
import Mathlib.Logic.Function.Basic
import Mathlib.Logic.Relation

/-!
# Interleaved transactions

The transactions of any number of servers share one database. A transaction keeps
its writes to itself until it commits; what it sees is the committed database with
its own writes on top. Each statement starts, which fixes its snapshot, and
finishes later, when every lock it takes is free: the time in between is the time
it waits, and other transactions may commit in it. A lock is held until the
transaction commits or aborts, and an abort can happen at any time.

The oracle of a statement says which rows a SKIP LOCKED query passes over. It may
name rows that were locked when the query came to them and are free when it
finishes, so nothing is required of it but that the rows the query returns can be
locked.
-/

namespace Rungrid

/-! ## Locks -/

/-- What a transaction can hold: an advisory lock, a row, or the entry of a new row
in a unique index. -/
inductive Lock where
  | advisory (key : String)
  | key (key : String)
  | job (id : Uuid)
  | worker (id : String)
  | attempt (id : Uuid)
  | artifact (id : Uuid)
  | object (key : String)
  | request (scope id : String)
deriving DecidableEq

/-- The row a write changes, with the unique entries of a new one. -/
def Write.locks : Write → List Lock
  | .insertJob r => [.job r.id, .key r.idempotencyKey]
  | .putJob r => [.job r.id]
  | .insertWorker r | .putWorker r => [.worker r.id]
  | .insertAttempt r | .putAttempt r => [.attempt r.id]
  | .insertArtifact r => [.artifact r.id, .object r.objectKey]
  | .insertEvent _ => []
  | .insertRequest r | .putRequest r => [.request r.scope r.requestID]

/-- The locks a query takes on the rows it returns, and the advisory lock. -/
def Stmt.selects : (s : Stmt) → s.Result → List Lock
  | .lockKey key, _ => [.advisory key]
  | .lockRequest scope id, row => if row.isSome then [.request scope id] else []
  | .lockJob id, row => if row.isSome then [.job id] else []
  | .lockWorker id, row => if row.isSome then [.worker id] else []
  | .lockAttempt id, row => if row.isSome then [.attempt id] else []
  | .pickJob _, row => row.toList.map (fun j => .job j.id)
  | .expiredJobs, ids => ids.map .job
  | _, _ => []

/-- The locks a statement that returns `r` and writes `ws` holds when it finishes. -/
def Stmt.takes (s : Stmt) (r : s.Result) (ws : List Write) : List Lock :=
  s.selects r ++ ws.flatMap Write.locks

/-! ## Transactions and the database they share -/

/-- Every reading of the clock lies between `b` and `e`. -/
def Oracle.Within (b e : Time) (o : Oracle) : Prop := ∀ n, b ≤ o.clock n ∧ o.clock n ≤ e

/-- A transaction under way: what is left of its program, what it has written and
locked, and the snapshot of a statement that has started, with the time of its start. -/
structure Tx where
  server : Store
  op : Op
  began : Time
  prog : Prog Result
  writes : List Write
  locks : List Lock
  started : Option (Db × Time)

/-- A transaction that committed, with the database it left. -/
structure Commit where
  server : Store
  op : Op
  began : Time
  ended : Time
  result : Result
  db : Db

structure World where
  committed : Db
  txs : Nat → Option Tx
  now : Time
  /-- The last value the sequence of event ids has handed out. -/
  sequence : Nat
  log : List Commit

/-- The ids of the events among the writes. -/
def eventIDs (ws : List Write) : List Nat :=
  ws.filterMap fun w => match w with
    | .insertEvent e => some e.id
    | _ => none

namespace World

def set (w : World) (i : Nat) (t : Option Tx) : World :=
  { w with txs := Function.update w.txs i t }

/-- No transaction but `i` holds the lock. -/
def Free (w : World) (i : Nat) (l : Lock) : Prop :=
  ∀ j t, j ≠ i → w.txs j = some t → l ∉ t.locks

/-- The database before the first transaction of a history. -/
def start (db : Db) (now : Time) : World := ⟨db, fun _ => none, now, db.lastEventID, []⟩

variable [Sha256]

/-- One step of the world. -/
inductive Step : World → World → Prop where
  /-- Time passes. -/
  | tick {w : World} {t : Time} : w.now ≤ t → Step w { w with now := t }
  | begin {w : World} {i : Nat} {s : Store} {op : Op} : w.txs i = none →
      Step w (w.set i (some ⟨s, op, w.now, op.prog s, [], [], none⟩))
  /-- The next statement takes its snapshot. -/
  | start {w : World} {i : Nat} {t : Tx} {st : Stmt} {k : st.Result → Prog Result} :
      w.txs i = some t → t.prog = .exec st k → t.started = none →
      Step w (w.set i (some { t with started := some (w.committed, w.now) }))
  /-- The statement has the locks it needs. Event ids are drawn from the sequence. -/
  | finish {w : World} {i : Nat} {t : Tx} {st : Stmt} {k : st.Result → Prog Result} {snap : Db}
      {b : Time} {o : Oracle} {r : st.Result} {ws : List Write} {n : Nat} :
      w.txs i = some t → t.prog = .exec st k → t.started = some (snap, b) → o.Within b w.now →
      st.eval o (snap.applyAll t.writes) (w.committed.applyAll t.writes) = .ok (r, ws) →
      (∀ l ∈ st.takes r ws, w.Free i l) →
      (∀ id ∈ eventIDs ws, w.sequence < id ∧ id ≤ n) → w.sequence ≤ n →
      Step w { w.set i (some { t with
        prog := k r
        writes := t.writes ++ ws
        locks := t.locks ++ st.takes r ws
        started := none }) with sequence := n }
  | commit {w : World} {i : Nat} {t : Tx} {r : Result} :
      w.txs i = some t → t.prog = .done r →
      Step w { w.set i none with
        committed := w.committed.applyAll t.writes
        log := w.log ++ [⟨t.server, t.op, t.began, w.now, r, w.committed.applyAll t.writes⟩] }
  /-- An error, a deadlock, a lost connection or a crash. -/
  | abort {w : World} {i : Nat} {t : Tx} : w.txs i = some t → Step w (w.set i none)

/-- The world after any interleaving of statements. -/
def Steps : World → World → Prop := Relation.ReflTransGen Step

end World

end Rungrid
