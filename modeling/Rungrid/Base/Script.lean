-- SUMMARY: Scripts: programs that ask for results from outside, any of which may raise instead.
import Mathlib.Data.List.Basic

/-!
# Scripts

A script asks one operation after the other and goes on with what each of them returns. An
operation can raise instead, and the script says what then. `ρ` are the operations and
`ans r` the results of `r`. A run is the list of the operations that were asked, each with
its result or none if it has raised; it may stop anywhere.
-/

/-- A program with operations from `ρ`. -/
inductive Script (ρ : Type) (ans : ρ → Type) (α : Type) where
  | done (a : α)
  | raise
  | ask (r : ρ) (next : Option (ans r) → Script ρ ans α)

namespace Script

variable {ρ : Type} {ans : ρ → Type} {α β : Type}

/-- The first script, and then the one its result gives. -/
def bind (f : α → Script ρ ans β) : Script ρ ans α → Script ρ ans β
  | .done a => f a
  | .raise => .raise
  | .ask r next => .ask r (fun x => bind f (next x))

instance : Monad (Script ρ ans) where
  pure := .done
  bind p f := p.bind f

/-- An operation whose exception is not handled. -/
def op (r : ρ) : Script ρ ans (ans r) := .ask r (fun x => x.elim .raise .done)

/-- `try`, with `h` as its `except` branch. -/
def handle : Script ρ ans α → Script ρ ans α → Script ρ ans α
  | .done a, _ => .done a
  | .raise, h => h
  | .ask r next, h => .ask r (fun x => handle (next x) h)

/-- A loop over a list, with the results of its turns. -/
def each (f : β → Script ρ ans α) : List β → Script ρ ans (List α)
  | [] => .done []
  | b :: bs => f b >>= fun a => each f bs >>= fun as => .done (a :: as)

/-! ## Runs -/

/-- An operation and its result. -/
abbrev Event (ρ : Type) (ans : ρ → Type) : Type := (r : ρ) × Option (ans r)

/-- Where a run has come to. -/
inductive Outcome (α : Type) where
  | going
  | returned (a : α)
  | raised

/-- The runs of a script. -/
inductive Runs : Script ρ ans α → List (Event ρ ans) → Outcome α → Prop where
  | stop {p : Script ρ ans α} : Runs p [] .going
  | done {a : α} : Runs (.done a) [] (.returned a)
  | raise : Runs .raise [] .raised
  | ask {r : ρ} {next : Option (ans r) → Script ρ ans α} {x : Option (ans r)} {τ : List (Event ρ ans)}
      {o : Outcome α} : Runs (next x) τ o → Runs (.ask r next) (⟨r, x⟩ :: τ) o

section Runs

variable {p : Script ρ ans α} {f : α → Script ρ ans β} {τ : List (Event ρ ans)}

theorem runs_op {r : ρ} {o : Outcome (ans r)} (h : Runs (op r : Script ρ ans (ans r)) τ o) :
    τ = [] ∧ o = .going ∨ (∃ a, τ = [⟨r, some a⟩] ∧ (o = .returned a ∨ o = .going)) ∨
      τ = [⟨r, none⟩] ∧ (o = .raised ∨ o = .going) := by
  cases h with
  | stop => exact .inl ⟨rfl, rfl⟩
  | @ask _ _ x _ _ h =>
      cases x with
      | none =>
          cases h with
          | stop => exact .inr (.inr ⟨rfl, .inr rfl⟩)
          | raise => exact .inr (.inr ⟨rfl, .inl rfl⟩)
      | some a =>
          cases h with
          | stop => exact .inr (.inl ⟨a, rfl, .inr rfl⟩)
          | done => exact .inr (.inl ⟨a, rfl, .inl rfl⟩)

theorem returned_op {r : ρ} {a : ans r} (h : Runs (op r : Script ρ ans (ans r)) τ (.returned a)) :
    τ = [⟨r, some a⟩] := by
  rcases runs_op h with ⟨-, ho⟩ | ⟨b, hτ, ho | ho⟩ | ⟨-, ho | ho⟩
  · cases ho
  · cases ho
    exact hτ
  · cases ho
  · cases ho
  · cases ho

/-- A run of two scripts ends in the first of them, or goes through it. -/
theorem runs_bind {o : Outcome β} (h : Runs (p >>= f) τ o) :
    (∃ τ₁ τ₂ a, τ = τ₁ ++ τ₂ ∧ Runs p τ₁ (.returned a) ∧ Runs (f a) τ₂ o) ∨
      Runs p τ .raised ∧ o = .raised ∨ Runs p τ .going ∧ o = .going := by
  induction p generalizing τ with
  | done a => exact .inl ⟨[], τ, a, rfl, .done, h⟩
  | raise =>
      cases h with
      | stop => exact .inr (.inr ⟨.stop, rfl⟩)
      | raise => exact .inr (.inl ⟨.raise, rfl⟩)
  | ask r next ih =>
      cases h with
      | stop => exact .inr (.inr ⟨.stop, rfl⟩)
      | @ask _ _ x τ _ h =>
          rcases ih x h with ⟨τ₁, τ₂, a, rfl, h₁, h₂⟩ | ⟨h, ho⟩ | ⟨h, ho⟩
          · exact .inl ⟨⟨r, x⟩ :: τ₁, τ₂, a, rfl, .ask h₁, h₂⟩
          · exact .inr (.inl ⟨.ask h, ho⟩)
          · exact .inr (.inr ⟨.ask h, ho⟩)

theorem returned_bind {b : β} (h : Runs (p >>= f) τ (.returned b)) :
    ∃ τ₁ τ₂ a, τ = τ₁ ++ τ₂ ∧ Runs p τ₁ (.returned a) ∧ Runs (f a) τ₂ (.returned b) := by
  rcases runs_bind h with h | ⟨-, ho⟩ | ⟨-, ho⟩
  · exact h
  · cases ho
  · cases ho

theorem Runs.bind {τ₁ τ₂ : List (Event ρ ans)} {a : α} {o : Outcome β} (h₁ : Runs p τ₁ (.returned a))
    (h₂ : Runs (f a) τ₂ o) : Runs (p >>= f) (τ₁ ++ τ₂) o := by
  induction p generalizing τ₁ with
  | done b =>
      cases h₁
      exact h₂
  | raise => cases h₁
  | ask r next ih =>
      cases h₁ with
      | @ask _ _ x _ _ h => exact .ask (ih x h)

theorem Runs.op (r : ρ) (a : ans r) : Runs (Script.op r : Script ρ ans (ans r)) [⟨r, some a⟩] (.returned a) :=
  .ask .done

/-- A run with a handler stays in the script, or enters the handler after an exception. -/
theorem runs_handle {h : Script ρ ans α} {o : Outcome α} (hrun : Runs (p.handle h) τ o) :
    Runs p τ o ∨ ∃ τ₁ τ₂, τ = τ₁ ++ τ₂ ∧ Runs p τ₁ .raised ∧ Runs h τ₂ o := by
  induction p generalizing τ with
  | done a => exact .inl hrun
  | raise => exact .inr ⟨[], τ, rfl, .raise, hrun⟩
  | ask r next ih =>
      cases hrun with
      | stop => exact .inl .stop
      | @ask _ _ x τ _ hrun =>
          rcases ih x hrun with hrun | ⟨τ₁, τ₂, rfl, h₁, h₂⟩
          · exact .inl (.ask hrun)
          · exact .inr ⟨⟨r, x⟩ :: τ₁, τ₂, rfl, .ask h₁, h₂⟩

theorem Runs.handle {o : Outcome α} (hrun : Runs p τ o) (ho : o ≠ .raised) (h : Script ρ ans α) :
    Runs (p.handle h) τ o := by
  induction p generalizing τ with
  | done a => exact hrun
  | raise =>
      cases hrun with
      | stop => exact .stop
      | raise => exact absurd rfl ho
  | ask r next ih =>
      cases hrun with
      | stop => exact .stop
      | @ask _ _ x _ _ hrun => exact .ask (ih x hrun)

theorem Runs.each_nil {g : β → Script ρ ans α} : Runs (each g []) [] (.returned []) := .done

theorem Runs.each_cons {g : β → Script ρ ans α} {b : β} {bs : List β} {a : α} {as : List α}
    {τ₁ τ₂ : List (Event ρ ans)} (h₁ : Runs (g b) τ₁ (.returned a))
    (h₂ : Runs (each g bs) τ₂ (.returned as)) :
    Runs (each g (b :: bs)) (τ₁ ++ τ₂) (.returned (a :: as)) := by
  have hrest := h₂.bind (f := fun as => (.done (a :: as) : Script ρ ans (List α))) .done
  rw [List.append_nil] at hrest
  exact h₁.bind hrest

/-- What the turns of a loop establish one after the other. -/
theorem each_induct {g : β → Script ρ ans α} {M : List β → List (Event ρ ans) → List α → Prop}
    (hnil : M [] [] []) (hcons : ∀ b bs τ₁ τ₂ a as, Runs (g b) τ₁ (.returned a) → M bs τ₂ as →
      M (b :: bs) (τ₁ ++ τ₂) (a :: as)) {bs : List β} {as : List α}
    (h : Runs (each g bs) τ (.returned as)) : M bs τ as := by
  induction bs generalizing τ as with
  | nil =>
      cases h
      exact hnil
  | cons b bs ih =>
      obtain ⟨τ₁, τ₂, a, rfl, hfirst, hrest⟩ := returned_bind h
      obtain ⟨τ₃, τ₄, as', rfl, hturns, hdone⟩ := returned_bind hrest
      cases hdone
      rw [List.append_nil]
      exact hcons b bs τ₁ τ₃ a as' hfirst (ih hturns)

end Runs

/-! ## The operations of a script -/

/-- Whatever is returned, the script asks only for operations with a property. -/
def Asks (P : ρ → Prop) : Script ρ ans α → Prop
  | .done _ | .raise => True
  | .ask r next => P r ∧ ∀ x, Asks P (next x)

section Asks

variable {P : ρ → Prop} {p : Script ρ ans α} {f : α → Script ρ ans β}

theorem Asks.op {r : ρ} (h : P r) : (Script.op r : Script ρ ans (ans r)).Asks P := by
  refine ⟨h, fun x => ?_⟩
  cases x <;> exact trivial

theorem Asks.bind (hp : p.Asks P) (hf : ∀ a, (f a).Asks P) : (p >>= f).Asks P := by
  induction p with
  | done a => exact hf a
  | raise => exact trivial
  | ask r next ih => exact ⟨hp.1, fun x => ih x (hp.2 x)⟩

theorem Asks.handle {h : Script ρ ans α} (hp : p.Asks P) (hh : h.Asks P) : (p.handle h).Asks P := by
  induction p with
  | done a => exact trivial
  | raise => exact hh
  | ask r next ih => exact ⟨hp.1, fun x => ih x (hp.2 x)⟩

theorem Asks.each {g : β → Script ρ ans α} {bs : List β} (hg : ∀ b ∈ bs, (g b).Asks P) :
    (each g bs).Asks P := by
  induction bs with
  | nil => exact trivial
  | cons b bs ih =>
      obtain ⟨hb, hbs⟩ := List.forall_mem_cons.mp hg
      exact hb.bind (fun a => (ih hbs).bind (fun as => trivial))

theorem Asks.run (hp : p.Asks P) {τ : List (Event ρ ans)} {o : Outcome α} (h : Runs p τ o) :
    ∀ e ∈ τ, P e.1 := by
  induction h with
  | stop => exact List.forall_mem_nil _
  | done => exact List.forall_mem_nil _
  | raise => exact List.forall_mem_nil _
  | ask _ ih => exact List.forall_mem_cons.mpr ⟨hp.1, ih (hp.2 _)⟩

end Asks

/-! ## Scripts without handlers -/

/-- Every exception ends the script. -/
def Strict : Script ρ ans α → Prop
  | .done _ | .raise => True
  | .ask _ next => next none = .raise ∧ ∀ a, Strict (next (some a))

section Strict

variable {p : Script ρ ans α} {f : α → Script ρ ans β}

theorem Strict.op (r : ρ) : (Script.op r : Script ρ ans (ans r)).Strict := ⟨rfl, fun _ => trivial⟩

theorem Strict.bind (hp : p.Strict) (hf : ∀ a, (f a).Strict) : (p >>= f).Strict := by
  induction p with
  | done a => exact hf a
  | raise => exact trivial
  | ask r next ih =>
      refine ⟨?_, fun a => ih (some a) (hp.2 a)⟩
      have hnone : (next none >>= f) = .raise := by
        rw [hp.1]
        rfl
      exact hnone

theorem Strict.each {g : β → Script ρ ans α} (hg : ∀ b, (g b).Strict) (bs : List β) :
    (each g bs).Strict := by
  induction bs with
  | nil => exact trivial
  | cons b bs ih => exact (hg b).bind (fun a => ih.bind (fun as => trivial))

/-- If such a script returns, then every operation has. -/
theorem Strict.answered (hp : p.Strict) {τ : List (Event ρ ans)} {a : α} (h : Runs p τ (.returned a)) :
    ∀ e ∈ τ, e.2.isSome = true := by
  induction p generalizing τ with
  | done b =>
      cases h
      exact List.forall_mem_nil _
  | raise => cases h
  | ask r next ih =>
      cases h with
      | @ask _ _ x _ _ h =>
          cases x with
          | none =>
              rw [hp.1] at h
              cases h
          | some a => exact List.forall_mem_cons.mpr ⟨rfl, ih (some a) (hp.2 a) h⟩

end Strict

end Script
