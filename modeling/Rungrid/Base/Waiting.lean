-- SUMMARY: Waiting for each other: where everyone wants only what is above all they hold, there is no cycle.
import Mathlib.Logic.Relation
import Mathlib.Order.Basic

/-!
# Waiting

Participants that hold resources and want others, over arbitrary types. A rank on the
resources that grows from what a participant holds to what it wants rules out cycles in the
wait-for graph, for any number of participants.
-/

namespace Waiting

variable {ι κ ρ : Type} [Preorder ρ] {holds wants : ι → κ → Prop} {rank : κ → ρ}

/-- The participant wants what another one holds. -/
def For (holds wants : ι → κ → Prop) (i j : ι) : Prop := ∃ l, wants i l ∧ holds j l

/-- Along a chain the ranks of what is waited for grow. -/
theorem chain (h : ∀ i l l', wants i l → holds i l' → rank l' < rank l) {i j : ι}
    (hchain : Relation.TransGen (For holds wants) i j) :
    ∃ l l', wants i l ∧ holds j l' ∧ rank l ≤ rank l' := by
  induction hchain with
  | single hstep =>
      obtain ⟨l, hwants, hholds⟩ := hstep
      exact ⟨l, l, hwants, hholds, le_refl _⟩
  | tail _ hstep ih =>
      obtain ⟨l, l', hwants, hholds, hle⟩ := ih
      obtain ⟨m, hwants', hholds'⟩ := hstep
      exact ⟨l, m, hwants, hholds', hle.trans (h _ _ _ hwants' hholds).le⟩

/-- Where everyone wants only what is above all they hold, nobody waits for themselves. -/
theorem acyclic (h : ∀ i l l', wants i l → holds i l' → rank l' < rank l) (i : ι) :
    ¬ Relation.TransGen (For holds wants) i i := by
  intro hchain
  obtain ⟨l, l', hwants, hholds, hle⟩ := chain h hchain
  exact absurd (h i l l' hwants hholds) (not_lt_of_ge hle)

end Waiting
