-- SUMMARY: Machines whose rejected calls change nothing: runs, invariants, counting and deduplication.
import Mathlib.Data.List.Basic

/-!
# Machines

A machine executes a call in a state: it returns a result or an error and leaves
a state. It is transactional when a call that returns an error leaves the state
as it was. A run is a list of calls.
-/

namespace Machine

variable {σ κ ε ρ : Type}

/-- A rejected call leaves the state as it was. -/
def Transactional (step : κ → σ → Except ε ρ × σ) : Prop :=
  ∀ c s e, (step c s).1 = .error e → (step c s).2 = s

/-- The state after a run. -/
def exec (step : κ → σ → Except ε ρ × σ) (cs : List κ) (s : σ) : σ :=
  cs.foldl (fun s c => (step c s).2) s

/-- The calls of a run, each with the state it is executed in. -/
def trace (step : κ → σ → Except ε ρ × σ) : List κ → σ → List (κ × σ)
  | [], _ => []
  | c :: cs, s => (c, s) :: trace step cs (step c s).2

variable {step : κ → σ → Except ε ρ × σ}

@[simp] theorem exec_cons (c : κ) (cs : List κ) (s : σ) :
    exec step (c :: cs) s = exec step cs (step c s).2 := rfl

theorem exec_append (cs ds : List κ) (s : σ) :
    exec step (cs ++ ds) s = exec step ds (exec step cs s) := List.foldl_append

/-- A property that holds at first and survives every successful call of a run
holds after the run. -/
theorem exec_inv {I : σ → Prop} (htx : Transactional step) (cs : List κ)
    (hstep : ∀ c ∈ cs, ∀ s r s', I s → step c s = (.ok r, s') → I s') {s : σ} (hs : I s) :
    I (exec step cs s) := by
  induction cs generalizing s with
  | nil => exact hs
  | cons c cs ih =>
      rw [exec_cons]
      refine ih (fun d hd => hstep d (List.mem_cons_of_mem c hd)) ?_
      cases hr : (step c s).1 with
      | error e =>
          rw [htx c s e hr]
          exact hs
      | ok r => exact hstep c List.mem_cons_self s r _ hs (Prod.ext hr rfl)

/-- What a run brings about, one of its successful calls brings about. -/
theorem exec_origin {D : σ → Prop} (htx : Transactional step) {cs : List κ} {s : σ} (hs : ¬ D s)
    (h : D (exec step cs s)) :
    ∃ pre c post r, cs = pre ++ c :: post ∧ ¬ D (exec step pre s) ∧
      D (step c (exec step pre s)).2 ∧ (step c (exec step pre s)).1 = .ok r := by
  induction cs generalizing s with
  | nil => exact absurd h hs
  | cons c cs ih =>
      by_cases hc : D (step c s).2
      · cases hr : (step c s).1 with
        | ok r => exact ⟨[], c, cs, r, rfl, hs, hc, hr⟩
        | error e => exact absurd (htx c s e hr ▸ hc) hs
      · obtain ⟨pre, d, post, r, rfl, hpre, hd⟩ := ih hc h
        exact ⟨c :: pre, d, post, r, rfl, hpre, hd⟩

theorem trace_append (cs ds : List κ) (s : σ) :
    trace step (cs ++ ds) s = trace step cs s ++ trace step ds (exec step cs s) := by
  induction cs generalizing s with
  | nil => rfl
  | cons c cs ih => simp [trace, ih]

section Once

variable {I D : σ → Prop} {p : κ → σ → Bool}

/-- A kind of call that is only made while `D` fails, that brings `D` about, and
that nothing undoes is made at most once in a run. -/
theorem countP_trace_le_one (hinv : ∀ c s, I s → I (step c s).2)
    (hstable : ∀ c s, I s → D s → D (step c s).2)
    (hdone : ∀ c s, I s → p c s = true → ¬ D s ∧ D (step c s).2)
    (cs : List κ) {s : σ} (hs : I s) : (trace step cs s).countP (fun x => p x.1 x.2) ≤ 1 := by
  have hzero : ∀ (cs : List κ) {s : σ}, I s → D s →
      (trace step cs s).countP (fun x => p x.1 x.2) = 0 := by
    intro cs
    induction cs with
    | nil => intro s _ _; rfl
    | cons c cs ih =>
        intro s hs hD
        have hp : p c s = false := Bool.eq_false_iff.mpr (fun hp => (hdone c s hs hp).1 hD)
        simp [trace, hp, ih (hinv c s hs) (hstable c s hs hD)]
  induction cs generalizing s with
  | nil => simp [trace]
  | cons c cs ih =>
      cases hp : p c s with
      | false => simpa [trace, hp] using ih (hinv c s hs)
      | true => simp [trace, hp, hzero cs (hinv c s hs) (hdone c s hs hp).2]

end Once

/-! ## Keyed calls -/

section Keyed

variable {ι : Type} [DecidableEq ι] {key : κ → Option ι}

/-- The calls of a run that succeed and are the first with their key to do so.
`seen` are the keys of the successful calls made before. -/
def firsts (step : κ → σ → Except ε ρ × σ) (key : κ → Option ι) (seen : List ι) :
    List κ → σ → List κ
  | [], _ => []
  | c :: cs, s =>
      if (step c s).1.isOk && (key c).all (fun k => k ∉ seen) then
        c :: firsts step key ((key c).toList ++ seen) cs (step c s).2
      else firsts step key seen cs (step c s).2

/-- When a successful call leaves a record `R` of its key that is never removed, and
a call whose key is recorded changes nothing, a run has the effect of its first
successful calls. -/
theorem exec_firsts {I : σ → Prop} {R : ι → σ → Prop} (htx : Transactional step)
    (hinv : ∀ c s, I s → I (step c s).2)
    (hrec : ∀ c s r k, I s → (step c s).1 = .ok r → key c = some k → R k (step c s).2)
    (hstable : ∀ c s k, I s → R k s → R k (step c s).2)
    (hreplay : ∀ c s k, I s → key c = some k → R k s → (step c s).2 = s)
    (cs : List κ) {s : σ} {seen : List ι} (hs : I s) (hseen : ∀ k ∈ seen, R k s) :
    exec step (firsts step key seen cs s) s = exec step cs s := by
  induction cs generalizing s seen with
  | nil => rfl
  | cons c cs ih =>
      rw [firsts, exec_cons]
      cases hr : (step c s).1 with
      | error e =>
          rw [htx c s e hr]
          exact ih hs hseen
      | ok r =>
          split
          · refine ih (hinv c s hs) (fun k hk => ?_)
            rcases List.mem_append.mp hk with hk | hk
            · exact hrec c s r k hs hr (Option.mem_toList.mp hk)
            · exact hstable c s k hs (hseen k hk)
          · rename_i hskip
            cases hkey : key c with
            | none => simp [Except.isOk, Except.toBool, hkey] at hskip
            | some k =>
                have hk : k ∈ seen := by
                  simpa [Except.isOk, Except.toBool, hkey] using hskip
                rw [hreplay c s k hs hkey (hseen k hk)]
                exact ih hs hseen

end Keyed

end Machine
