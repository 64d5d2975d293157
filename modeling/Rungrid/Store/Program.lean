-- SUMMARY: Transaction bodies as trees of statements, and their execution when no other transaction interferes.
import Rungrid.Store.Statement

/-!
# Programs

The body of a transaction is an interaction tree: each node executes a statement
and branches on its result. `Prog.run` executes a tree on a database of its own;
the isolation model gives the same trees a meaning in which statements of several
transactions interleave.

`Prog.Runs` is the relational reading of `run`: some choice of oracles, each with
the property `P`, takes the program from one database to another. It is the form
in which programs are taken apart.
-/

namespace Rungrid

inductive Prog (α : Type) where
  | done (result : α)
  | fail (e : Err)
  | exec (s : Stmt) (k : s.Result → Prog α)

namespace Prog

variable {α β γ : Type}

def bind : Prog α → (α → Prog β) → Prog β
  | .done a, f => f a
  | .fail e, _ => .fail e
  | .exec s k, f => .exec s (fun r => (k r).bind f)

instance : Monad Prog where
  pure := .done
  bind := bind

@[simp] theorem pure_eq (a : α) : (Pure.pure a : Prog α) = .done a := rfl

@[simp] theorem done_bind (a : α) (f : α → Prog β) : (Prog.done a >>= f) = f a := rfl

@[simp] theorem fail_bind (e : Err) (f : α → Prog β) : (Prog.fail e >>= f) = .fail e := rfl

@[simp] theorem exec_bind (s : Stmt) (k : s.Result → Prog α) (f : α → Prog β) :
    (Prog.exec s k >>= f) = .exec s (fun r => k r >>= f) := rfl

/-- One statement. -/
def sql (s : Stmt) : Prog s.Result := .exec s .done

/-! ## Execution -/

/-- Execute a transaction body alone: statement `n` of the run uses oracle `n`. -/
def run : Prog α → (Nat → Oracle) → Db → Except Err (α × Db)
  | .done a, _, db => .ok (a, db)
  | .fail e, _, _ => .error e
  | .exec s k, o, db =>
      match s.eval (o 0) db db with
      | .error e => .error e
      | .ok (r, ws) => (k r).run (fun n => o (n + 1)) (db.applyAll ws)

theorem run_exec {s : Stmt} {k : s.Result → Prog α} {o : Nat → Oracle} {db : Db} {r : s.Result}
    {ws : List Write} (h : s.eval (o 0) db db = .ok (r, ws)) :
    (Prog.exec s k).run o db = (k r).run (fun n => o (n + 1)) (db.applyAll ws) := by
  simp only [run, h]

theorem run_sql_bind {s : Stmt} {f : s.Result → Prog β} {o : Nat → Oracle} {db : Db} {r : s.Result}
    {ws : List Write} (h : s.eval (o 0) db db = .ok (r, ws)) :
    (sql s >>= f).run o db = (f r).run (fun n => o (n + 1)) (db.applyAll ws) := by
  simp only [sql, exec_bind, done_bind, run, h]

theorem run_map (p : Prog α) (g : α → β) (o : Nat → Oracle) (db : Db) :
    (p >>= fun a => .done (g a)).run o db = (p.run o db).map (fun r => (g r.1, r.2)) := by
  induction p generalizing o db with
  | done a => rfl
  | fail e => rfl
  | exec s k ih =>
      simp only [exec_bind, run]
      cases s.eval (o 0) db db with
      | error e => rfl
      | ok r => exact ih r.1 _ _

/-- What follows a program runs with the oracles it has left. -/
theorem run_bind {p : Prog α} {f : α → Prog β} {o : Nat → Oracle} {db mid : Db} {a : α}
    (h : p.run o db = .ok (a, mid)) :
    ∃ k, (p >>= f).run o db = (f a).run (fun n => o (n + k)) mid := by
  induction p generalizing o db with
  | done b =>
      cases h
      exact ⟨0, rfl⟩
  | fail e => cases h
  | exec s k ih =>
      simp only [run, exec_bind] at h ⊢
      cases heval : s.eval (o 0) db db with
      | error e =>
          rw [heval] at h
          cases h
      | ok r =>
          rw [heval] at h
          obtain ⟨n, hn⟩ := ih r.1 h
          exact ⟨n + 1, hn⟩

/-- The program can take `db` to `db'` and return `a`, with oracles that satisfy `P`. -/
inductive Runs (P : Oracle → Prop) : Prog α → Db → α → Db → Prop where
  | done {a : α} {db : Db} : Runs P (.done a) db a db
  | exec {s : Stmt} {k : s.Result → Prog α} {o : Oracle} {db db' : Db} {r : s.Result}
      {ws : List Write} {a : α} :
      P o → s.eval o db db = .ok (r, ws) → Runs P (k r) (db.applyAll ws) a db' →
      Runs P (.exec s k) db a db'

variable {P : Oracle → Prop}

theorem runs_of_run {p : Prog α} {o : Nat → Oracle} {db db' : Db} {a : α}
    (hP : ∀ n, P (o n)) (h : p.run o db = .ok (a, db')) : Runs P p db a db' := by
  induction p generalizing o db with
  | done b =>
      simp only [run, Except.ok.injEq, Prod.mk.injEq] at h
      obtain ⟨rfl, rfl⟩ := h
      exact .done
  | fail e => simp [run] at h
  | exec s k ih =>
      simp only [run] at h
      split at h
      · cases h
      · rename_i r ws heval
        exact .exec (hP 0) heval (ih r (fun n => hP (n + 1)) h)

theorem run_of_runs {p : Prog α} {db db' : Db} {a : α} (d : Oracle) (hd : P d)
    (h : Runs P p db a db') : ∃ o, (∀ n, P (o n)) ∧ p.run o db = .ok (a, db') := by
  induction h with
  | done => exact ⟨fun _ => d, fun _ => hd, rfl⟩
  | @exec s k o₀ db db' r ws a hP heval _ ih =>
      obtain ⟨o, ho, hrun⟩ := ih
      refine ⟨fun n => n.casesOn o₀ o, ?_, ?_⟩
      · intro n
        cases n with
        | zero => exact hP
        | succ n => exact ho n
      · exact (run_exec heval).trans hrun

/-! ## Taking a run apart -/

@[simp] theorem runs_done {a b : α} {db db' : Db} :
    Runs P (.done a) db b db' ↔ b = a ∧ db' = db := by
  constructor
  · rintro ⟨⟩; exact ⟨rfl, rfl⟩
  · rintro ⟨rfl, rfl⟩; exact .done

@[simp] theorem not_runs_fail {e : Err} {a : α} {db db' : Db} : ¬ Runs P (.fail e) db a db' := by
  rintro ⟨⟩

theorem runs_exec {s : Stmt} {k : s.Result → Prog α} {a : α} {db db' : Db} :
    Runs P (.exec s k) db a db' ↔
      ∃ o r ws, P o ∧ s.eval o db db = .ok (r, ws) ∧ Runs P (k r) (db.applyAll ws) a db' := by
  constructor
  · rintro ⟨⟩
    exact ⟨_, _, _, ‹_›, ‹_›, ‹_›⟩
  · rintro ⟨o, r, ws, hP, heval, hk⟩
    exact .exec hP heval hk

theorem runs_sql_bind {s : Stmt} {f : s.Result → Prog β} {b : β} {db db' : Db} :
    Runs P (sql s >>= f) db b db' ↔
      ∃ o r ws, P o ∧ s.eval o db db = .ok (r, ws) ∧ Runs P (f r) (db.applyAll ws) b db' :=
  runs_exec

/-- A run of a sequence is a run of its parts. -/
theorem runs_bind {p : Prog α} {f : α → Prog β} {b : β} {db db' : Db} :
    Runs P (p >>= f) db b db' ↔ ∃ a mid, Runs P p db a mid ∧ Runs P (f a) mid b db' := by
  constructor
  · intro h
    induction p generalizing db with
    | done a => exact ⟨a, db, .done, h⟩
    | fail e => exact absurd h not_runs_fail
    | exec s k ih =>
        obtain ⟨o, r, ws, hP, heval, hk⟩ := runs_exec.mp h
        obtain ⟨a, mid, hp, hf⟩ := ih r hk
        exact ⟨a, mid, .exec hP heval hp, hf⟩
  · rintro ⟨a, mid, hp, hf⟩
    induction hp with
    | done => exact hf
    | exec hP heval _ ih => exact .exec hP heval (ih hf)

/-- What every statement keeps, a run keeps. -/
theorem Runs.inv {I : Db → Prop} {p : Prog α} {db db' : Db} {a : α}
    (hstep : ∀ {s : Stmt} {o : Oracle} {db : Db} {r : s.Result} {ws : List Write}, I db →
      s.eval o db db = .ok (r, ws) → I (db.applyAll ws))
    (h : Runs P p db a db') (hI : I db) : I db' := by
  induction h with
  | done => exact hI
  | exec _ heval _ ih => exact ih (hstep hI heval)

/-! ## What a run executes and how it fails -/

/-- Some run of the program in `db` executes the statement `st`. -/
inductive Executes (st : Stmt) : Prog α → Db → Prop where
  | here {k : st.Result → Prog α} {db : Db} : Executes st (.exec st k) db
  | later {s : Stmt} {k : s.Result → Prog α} {o : Oracle} {db : Db} {r : s.Result}
      {ws : List Write} :
      s.eval o db db = .ok (r, ws) → Executes st (k r) (db.applyAll ws) →
      Executes st (.exec s k) db

/-- Every run of the program in `db` executes statements that satisfy `G` and
fails, if it does, with an error that satisfies `E`. -/
def Safe (G : Stmt → Prop) (E : Err → Prop) : Prog α → Db → Prop
  | .done _, _ => True
  | .fail e, _ => E e
  | .exec s k, db => G s ∧ ∀ o, (∀ e, s.eval o db db = .error e → E e) ∧
      ∀ r ws, s.eval o db db = .ok (r, ws) → (k r).Safe G E (db.applyAll ws)

/-- Every statement of the program satisfies `G` and every failing branch `E`. -/
def All (G : Stmt → Prop) (E : Err → Prop) : Prog α → Prop
  | .done _ => True
  | .fail e => E e
  | .exec s k => G s ∧ ∀ r, (k r).All G E

variable {G : Stmt → Prop} {E : Err → Prop}

theorem Safe.error {p : Prog α} {o : Nat → Oracle} {db : Db} {e : Err} (h : p.Safe G E db)
    (hrun : p.run o db = .error e) : E e := by
  induction p generalizing o db with
  | done a => cases hrun
  | fail e' =>
      cases hrun
      exact h
  | exec s k ih =>
      simp only [run] at hrun
      split at hrun
      · rename_i e' heval
        cases hrun
        exact (h.2 (o 0)).1 e heval
      · rename_i r ws heval
        exact ih r ((h.2 (o 0)).2 r ws heval) hrun

theorem Safe.executes {p : Prog α} {db : Db} {st : Stmt} (h : p.Safe G E db)
    (hex : Executes st p db) : G st := by
  induction hex with
  | here => exact h.1
  | later heval _ ih => exact ih ((h.2 _).2 _ _ heval)

theorem Safe.bind {p : Prog α} {f : α → Prog β} {db : Db} (hp : p.Safe G E db)
    (hf : ∀ a mid, Runs (fun _ => True) p db a mid → (f a).Safe G E mid) :
    (p >>= f).Safe G E db := by
  induction p generalizing db with
  | done a => exact hf a db .done
  | fail e => exact hp
  | exec s k ih =>
      refine ⟨hp.1, fun o => ⟨(hp.2 o).1, fun r ws heval => ?_⟩⟩
      exact ih r ((hp.2 o).2 r ws heval) (fun a mid hrun => hf a mid (.exec trivial heval hrun))

theorem All.bind {p : Prog α} {f : α → Prog β} (hp : p.All G E) (hf : ∀ a, (f a).All G E) :
    (p >>= f).All G E := by
  induction p with
  | done a => exact hf a
  | fail e => exact hp
  | exec s k ih => exact ⟨hp.1, fun r => ih r (hp.2 r)⟩

/-- What holds of every branch holds of every run. -/
theorem All.mono {G' : Stmt → Prop} {E' : Err → Prop} {p : Prog α} (hp : p.All G E)
    (hG : ∀ s, G s → G' s) (hE : ∀ e, E e → E' e) : p.All G' E' := by
  induction p with
  | done a => trivial
  | fail e => exact hE e hp
  | exec s k ih => exact ⟨hG s hp.1, fun r => ih r (hp.2 r)⟩

theorem All.safe {p : Prog α} (hp : p.All G E)
    (hE : ∀ (s : Stmt), G s → ∀ (o : Oracle) (db : Db) (e : Err), s.eval o db db = .error e → E e)
    (db : Db) : p.Safe G E db := by
  induction p generalizing db with
  | done a => trivial
  | fail e => exact hp
  | exec s k ih =>
      exact ⟨hp.1, fun o => ⟨hE s hp.1 o db, fun r ws _ => ih r (hp.2 r) _⟩⟩

/-- Every run of the program in `db` with oracles that satisfy `P` fails, if it does,
with an error that satisfies `E`. -/
def FailsOnly (P : Oracle → Prop) (E : Err → Prop) : Prog α → Db → Prop
  | .done _, _ => True
  | .fail e, _ => E e
  | .exec s k, db => ∀ o, P o → (∀ e, s.eval o db db = .error e → E e) ∧
      ∀ r ws, s.eval o db db = .ok (r, ws) → (k r).FailsOnly P E (db.applyAll ws)

theorem FailsOnly.error {p : Prog α} {o : Nat → Oracle} {db : Db} {e : Err}
    (h : p.FailsOnly P E db) (hP : ∀ n, P (o n)) (hrun : p.run o db = .error e) : E e := by
  induction p generalizing o db with
  | done a => cases hrun
  | fail e' =>
      cases hrun
      exact h
  | exec s k ih =>
      simp only [run] at hrun
      split at hrun
      · rename_i e' heval
        cases hrun
        exact (h (o 0) (hP 0)).1 e heval
      · rename_i r ws heval
        exact ih r ((h (o 0) (hP 0)).2 r ws heval) (fun n => hP (n + 1)) hrun

theorem FailsOnly.bind {p : Prog α} {f : α → Prog β} {db : Db} (hp : p.FailsOnly P E db)
    (hf : ∀ a mid, Runs P p db a mid → (f a).FailsOnly P E mid) : (p >>= f).FailsOnly P E db := by
  induction p generalizing db with
  | done a => exact hf a db .done
  | fail e => exact hp
  | exec s k ih =>
      refine fun o ho => ⟨(hp o ho).1, fun r ws heval => ?_⟩
      exact ih r ((hp o ho).2 r ws heval) (fun a mid hrun => hf a mid (.exec ho heval hrun))

end Prog

end Rungrid
