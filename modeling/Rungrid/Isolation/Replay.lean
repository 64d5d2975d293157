-- SUMMARY: Running a transaction amid the commits of others, and replaying it at once when it commits.
import Rungrid.Isolation.Rely

/-!
# Replaying a transaction

`Amid` is a run of a program while other transactions commit: every statement has a
snapshot and a later state in which it gets its locks, and between statements the
committed database changes as `Env` allows. A transaction can be redone when,
whatever the others commit until it commits itself, its program run alone on the
database of that moment makes the same writes. `Redone` says so, and it is put
together from one fact for each statement, `Ran.Exact`.

The ids of events come from a sequence that other transactions draw from as well,
so a replay makes the same writes but for these numbers.
-/

namespace Rungrid

open Prog (sql Runs runs_bind runs_sql_bind)

/-! ## Event numbers -/

/-- An event without its number. -/
def EventRec.body (e : EventRec) : EventRec := { e with id := 0 }

def Db.unnumbered (db : Db) : Db := { db with events := db.events.map EventRec.body }

def Write.unnumbered : Write → Write
  | .insertEvent e => .insertEvent e.body
  | w => w

/-- Two databases that differ at most in the numbers of events. -/
def Db.Same (A X : Db) : Prop := A.unnumbered = X.unnumbered

section Numbers

variable {A X Y : Db} {ws vs : List Write}

theorem Db.unnumbered_apply (X : Db) (w : Write) :
    (X.apply w).unnumbered = X.unnumbered.apply w.unnumbered := by
  cases w <;> simp [Db.unnumbered, Db.apply, Write.unnumbered]

theorem Db.unnumbered_applyAll (X : Db) (ws : List Write) :
    (X.applyAll ws).unnumbered = X.unnumbered.applyAll (ws.map Write.unnumbered) := by
  induction ws generalizing X with
  | nil => rfl
  | cons w ws ih => rw [List.map_cons, Db.applyAll_cons, Db.applyAll_cons, ih, unnumbered_apply]

theorem Db.Same.applyAll (h : A.Same X) (hws : ws.map Write.unnumbered = vs.map Write.unnumbered) :
    (A.applyAll ws).Same (X.applyAll vs) := by
  rw [Same, unnumbered_applyAll, unnumbered_applyAll, hws, h]

/-- No statement reads an event. -/
theorem Stmt.eval_same {st : Stmt} {o : Oracle} {r : st.Result} (h : A.Same X)
    (he : st.eval o X X = .ok (r, ws)) :
    ∃ vs, st.eval o A A = .ok (r, vs) ∧ vs.map Write.unnumbered = ws.map Write.unnumbered := by
  obtain ⟨jobs, workers, attempts, artifacts, events, requests⟩ := A
  obtain ⟨jobs', workers', attempts', artifacts', events', requests'⟩ := X
  simp only [Db.Same, Db.unnumbered, Db.mk.injEq] at h
  obtain ⟨rfl, rfl, rfl, rfl, -, rfl⟩ := h
  cases st with
  | insertEvent job attempt kind payload =>
      simp only [Stmt.eval] at he ⊢
      split at he
      · cases he
      split at he
      · cases he
      split at he
      · cases he
      rename_i hnul hjob hatt
      cases he
      have hjob' : ¬ ((Db.mk jobs workers attempts artifacts events requests).job? job).isNone := hjob
      have hatt' : ¬ attempt.any (fun a =>
          ((Db.mk jobs workers attempts artifacts events requests).attempt? a).isNone) := hatt
      exact ⟨_, (if_neg hnul).trans ((if_neg hjob').trans (if_neg hatt')), rfl⟩
  | _ => exact ⟨ws, he, rfl⟩

end Numbers

/-! ## Replays -/

/-- Alone on any database like `X`, the program can return `a` and leave one like `Y`. -/
def Replays {α : Type} (P : Oracle → Prop) (p : Prog α) (X : Db) (a : α) (Y : Db) : Prop :=
  ∀ A : Db, A.Same X → ∃ A', Runs P p A a A' ∧ A'.Same Y

/-- Alone on `X`, the statement can return `r` and make the writes `ws`. -/
def Stmt.Redo (P : Oracle → Prop) (st : Stmt) (X : Db) (r : st.Result) (ws : List Write) : Prop :=
  ∃ o vs, P o ∧ st.eval o X X = .ok (r, vs) ∧ vs.map Write.unnumbered = ws.map Write.unnumbered

section Replays

variable {α β : Type} {P : Oracle → Prop} {X Y Z : Db}

theorem Replays.done (a : α) (X : Db) : Replays P (.done a) X a X :=
  fun A h => ⟨A, .done, h⟩

theorem Replays.bind {p : Prog α} {f : α → Prog β} {a : α} {b : β} (hp : Replays P p X a Y)
    (hf : Replays P (f a) Y b Z) : Replays P (p >>= f) X b Z := by
  intro A hA
  obtain ⟨A', hrun, hA'⟩ := hp A hA
  obtain ⟨A'', hrun', hA''⟩ := hf A' hA'
  exact ⟨A'', runs_bind.mpr ⟨a, A', hrun, hrun'⟩, hA''⟩

theorem Replays.sql {st : Stmt} {f : st.Result → Prog β} {r : st.Result} {ws : List Write} {b : β}
    (hst : st.Redo P X r ws) (hf : Replays P (f r) (X.applyAll ws) b Y) :
    Replays P (sql st >>= f) X b Y := by
  intro A hA
  obtain ⟨o, vs, ho, he, hvs⟩ := hst
  obtain ⟨us, he', hus⟩ := Stmt.eval_same hA he
  obtain ⟨A', hrun, hA'⟩ := hf _ (hA.applyAll (hus.trans hvs))
  exact ⟨A', runs_sql_bind.mpr ⟨o, r, us, ho, he', hrun⟩, hA'⟩

end Replays

/-! ## Runs amid commits -/

/-- Where a transaction stands: its locks, its writes, and the committed database
when its last statement finished. -/
structure Point where
  locks : List Lock
  writes : List Write
  db : Db

namespace Point

/-- What the transaction sees. -/
def view (x : Point) : Db := x.db.applyAll x.writes

/-- The point after a statement that finished when `C` was committed. -/
def after (x : Point) (C : Db) (st : Stmt) (r : st.Result) (ws : List Write) : Point :=
  ⟨x.locks ++ st.takes r ws, x.writes ++ ws, C⟩

theorem view_after (x : Point) (C : Db) (st : Stmt) (r : st.Result) (ws : List Write) :
    (x.after C st r ws).view = (C.applyAll x.writes).applyAll ws :=
  Db.applyAll_append C x.writes ws

/-- The transaction made its writes under their guards. -/
structure Owns (x : Point) : Prop where
  tidy : x.db.Tidy
  owned : Write.AllOwned x.locks x.db x.writes

theorem Owns.env {x : Point} {C : Db} (h : x.Owns) (henv : Env x.locks x.db C) :
    Owns ⟨x.locks, x.writes, C⟩ :=
  ⟨henv.tidy, henv.toRely.allOwned h.tidy henv.tidy h.owned⟩

/-- The view changes as the committed database does. -/
theorem Owns.view {x : Point} {C : Db} (h : x.Owns) (henv : Env x.locks x.db C) :
    Rely x.locks x.view (C.applyAll x.writes) :=
  henv.toRely.applyAll h.tidy henv.tidy h.owned

end Point

/-- A statement that started with the snapshot `S` and finished at `C`. -/
structure Ran (P : Oracle → Prop) (x : Point) (st : Stmt) (o : Oracle) (S C : Db) (r : st.Result)
    (ws : List Write) : Prop where
  oracle : P o
  snap : Env x.locks x.db S
  wait : Env x.locks S C
  eval : st.eval o (S.applyAll x.writes) (C.applyAll x.writes) = .ok (r, ws)

/-- A run of a program from one point to another while others commit. -/
inductive Amid {α : Type} (P : Oracle → Prop) : Point → Prog α → α → Point → Prop where
  | done {x : Point} {a : α} : Amid P x (.done a) a x
  | exec {x y : Point} {st : Stmt} {k : st.Result → Prog α} {o : Oracle} {S C : Db} {r : st.Result}
      {ws : List Write} {a : α} :
      Ran P x st o S C r ws → Amid P (x.after C st r ws) (k r) a y → Amid P x (.exec st k) a y

/-- The statement was made under its guards, and whatever others commit from now on,
it would do the same. -/
structure Ran.Exact {P : Oracle → Prop} {x : Point} {st : Stmt} {o : Oracle} {S C : Db}
    {r : st.Result} {ws : List Write} (_ : Ran P x st o S C r ws) : Prop where
  owned : Write.AllOwned (x.locks ++ st.takes r ws) (C.applyAll x.writes) ws
  redo : ∀ {Z : Db}, Rely (x.locks ++ st.takes r ws) (C.applyAll x.writes) Z → st.Redo P Z r ws

/-- The transaction that came from `x` to `y` can be redone at once, whatever others
commit after `y`. -/
structure Redone {α : Type} (P : Oracle → Prop) (x : Point) (p : Prog α) (a : α) (y : Point) :
    Prop where
  owns : y.Owns
  replays : ∀ {Z : Db}, Env y.locks y.db Z →
    Replays P p (Z.applyAll x.writes) a (Z.applyAll y.writes)

section Rules

variable {α β : Type} {P : Oracle → Prop} {x y z : Point} {st : Stmt} {o : Oracle} {S C : Db}
  {r : st.Result} {ws : List Write}

theorem Amid.env {p : Prog α} {a : α} (h : Amid P x p a y) (hx : x.db.Tidy) :
    x.locks ⊆ y.locks ∧ Env x.locks x.db y.db := by
  induction h with
  | done => exact ⟨fun _ hl => hl, .refl hx⟩
  | @exec x y st k o S C r ws a hs _ ih =>
      obtain ⟨hsub, henv⟩ := ih hs.wait.tidy
      have hlocks : x.locks ⊆ (x.after C st r ws).locks := List.subset_append_left _ _
      exact ⟨fun _ hl => hsub (hlocks hl), (hs.snap.trans hs.wait).trans (henv.mono hlocks)⟩

theorem Amid.bind {p : Prog α} {f : α → Prog β} {b : β} (h : Amid P x (p >>= f) b y) :
    ∃ a m, Amid P x p a m ∧ Amid P m (f a) b y := by
  induction p generalizing x with
  | done a => exact ⟨a, x, .done, h⟩
  | fail e => cases h
  | exec st k ih =>
      cases h with
      | exec hs h =>
          obtain ⟨a, m, hp, hf⟩ := ih _ h
          exact ⟨a, m, .exec hs hp, hf⟩

theorem Amid.sql {f : st.Result → Prog β} {b : β} (h : Amid P x (sql st >>= f) b y) :
    ∃ o S C r ws, Ran P x st o S C r ws ∧ Amid P (x.after C st r ws) (f r) b y := by
  cases h with
  | exec hs h => exact ⟨_, _, _, _, _, hs, h⟩

@[simp] theorem amid_done {a b : α} : Amid P x (.done a) b y ↔ b = a ∧ y = x := by
  constructor
  · rintro ⟨⟩
    exact ⟨rfl, rfl⟩
  · rintro ⟨rfl, rfl⟩
    exact .done

theorem not_amid_fail {e : Err} {a : α} : ¬ Amid P x (.fail e : Prog α) a y := by
  rintro ⟨⟩

theorem Ran.owns (hs : Ran P x st o S C r ws) (hx : x.Owns)
    (hown : Write.AllOwned (x.locks ++ st.takes r ws) (C.applyAll x.writes) ws) :
    (x.after C st r ws).Owns := by
  have hsub : x.locks ⊆ x.locks ++ st.takes r ws := List.subset_append_left _ _
  have hold := (hx.env (hs.snap.trans hs.wait)).owned
  exact ⟨hs.wait.tidy, Write.allOwned_append.mpr ⟨hold.mono hsub, hown⟩⟩

/-- Until the transaction commits, what it saw changes as the committed database does. -/
theorem Amid.view {p : Prog α} {a : α} {Z : Db} (h : Amid P (x.after C st r ws) p a y)
    (hown : (x.after C st r ws).Owns) (hZ : Env y.locks y.db Z) :
    Rely (x.locks ++ st.takes r ws) (C.applyAll x.writes) (Z.applyAll x.writes) := by
  obtain ⟨hsub, henv⟩ := h.env hown.tidy
  have hZ' := henv.trans (hZ.mono hsub)
  exact hZ'.toRely.applyAll hown.tidy hZ'.tidy (Write.allOwned_append.mp hown.owned).1

theorem Redone.done (a : α) (hx : x.Owns) : Redone P x (.done a) a x :=
  ⟨hx, fun _ => .done a _⟩

/-- A transaction that is still running has passed its guards. -/
theorem Redone.guard {c : Prop} [Decidable c] {err : Err} {p : Prog α} {a : α}
    (h : Amid P x (if c then .fail err else p) a y)
    (hp : ¬ c → Amid P x p a y → Redone P x p a y) :
    Redone P x (if c then .fail err else p) a y := by
  by_cases hc : c
  · rw [if_pos hc] at h
    exact absurd h not_amid_fail
  · rw [if_neg hc] at h ⊢
    exact hp hc h

theorem Redone.ite {c : Prop} [Decidable c] {p q : Prog α} {a : α}
    (h : Amid P x (if c then p else q) a y) (hp : c → Amid P x p a y → Redone P x p a y)
    (hq : ¬ c → Amid P x q a y → Redone P x q a y) : Redone P x (if c then p else q) a y := by
  by_cases hc : c
  · rw [if_pos hc] at h ⊢
    exact hp hc h
  · rw [if_neg hc] at h ⊢
    exact hq hc h

/-- An exact statement, and the rest redone. -/
theorem Redone.sql {f : st.Result → Prog β} {b : β} {hs : Ran P x st o S C r ws} (hx : x.Owns)
    (hex : hs.Exact) (h : Amid P (x.after C st r ws) (f r) b y)
    (hk : Redone P (x.after C st r ws) (f r) b y) : Redone P x (sql st >>= f) b y := by
  refine ⟨hk.owns, fun {Z} hZ => ?_⟩
  have hview := h.view (hs.owns hx hex.owned) hZ
  have hrest := hk.replays hZ
  rw [Point.after, Db.applyAll_append] at hrest
  exact .sql (hex.redo hview) hrest

theorem Redone.bind {p : Prog α} {f : α → Prog β} {a : α} {b : β} (hp : Redone P x p a y)
    (h : Amid P y (f a) b z) (hf : Redone P y (f a) b z) : Redone P x (p >>= f) b z := by
  refine ⟨hf.owns, fun {Z} hZ => ?_⟩
  obtain ⟨hsub, henv⟩ := h.env hp.owns.tidy
  exact (hp.replays (henv.trans (hZ.mono hsub))).bind (hf.replays hZ)

end Rules

end Rungrid
