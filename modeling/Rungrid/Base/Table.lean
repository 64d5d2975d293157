-- SUMMARY: Tables as lists of rows in insertion order, with lookup, replacement and insertion under a key.
import Mathlib.Data.List.Nodup
import Mathlib.Data.List.Basic
import Mathlib.Data.List.Sort

/-!
# Keyed tables

A table is the list of its rows in insertion order. A key function says what
identifies a row. `put` replaces the row stored under a key and `t ++ [row]`
inserts a row. `Keyed` is the primary-key constraint, and it is what makes `put`
touch at most one row.
-/

namespace Table

variable {ρ κ : Type} [DecidableEq κ] {key : ρ → κ}

/-- The first row stored under a key. -/
def find (key : ρ → κ) (k : κ) (t : List ρ) : Option ρ :=
  t.find? (fun r => key r = k)

/-- Replace the row stored under the key of `row`. -/
def put (key : ρ → κ) (row : ρ) (t : List ρ) : List ρ :=
  t.map (fun r => if key r = key row then row else r)

/-- No two rows share a key. -/
def Keyed (key : ρ → κ) (t : List ρ) : Prop := (t.map key).Nodup

/-! ## Lookup -/

theorem mem_of_find {k : κ} {t : List ρ} {r : ρ} (h : find key k t = some r) : r ∈ t :=
  List.mem_of_find?_eq_some h

theorem key_of_find {k : κ} {t : List ρ} {r : ρ} (h : find key k t = some r) : key r = k := by
  simpa using List.find?_some h

theorem find_eq_none {k : κ} {t : List ρ} : find key k t = none ↔ ∀ r ∈ t, key r ≠ k := by
  simp [find]

omit [DecidableEq κ] in
/-- A key names one row. -/
theorem Keyed.eq_of_key {t : List ρ} (ht : Keyed key t) {r r' : ρ} (hr : r ∈ t) (hr' : r' ∈ t)
    (hk : key r = key r') : r = r' :=
  List.inj_on_of_nodup_map ht hr hr' hk

theorem Keyed.find_of_mem {t : List ρ} (ht : Keyed key t) {r : ρ} (hr : r ∈ t) :
    find key (key r) t = some r := by
  cases h : find key (key r) t with
  | none => exact absurd rfl (find_eq_none.mp h r hr)
  | some r' => rw [ht.eq_of_key (mem_of_find h) hr (key_of_find h)]

theorem Keyed.find_iff {t : List ρ} (ht : Keyed key t) {k : κ} {r : ρ} :
    find key k t = some r ↔ r ∈ t ∧ key r = k := by
  constructor
  · intro h
    exact ⟨mem_of_find h, key_of_find h⟩
  · rintro ⟨hr, rfl⟩
    exact ht.find_of_mem hr

theorem find_append (k : κ) (t : List ρ) (row : ρ) :
    find key k (t ++ [row]) =
      (find key k t).or (if key row = k then some row else none) := by
  simp [find, List.find?_append, List.find?_singleton]

theorem find_append_of_some {k : κ} {t : List ρ} {r : ρ} (row : ρ) (h : find key k t = some r) :
    find key k (t ++ [row]) = some r := by
  simp [find_append, h]

theorem find_append_self {t : List ρ} {row : ρ} (h : find key (key row) t = none) :
    find key (key row) (t ++ [row]) = some row := by
  simp [find_append, h]

theorem find_append_ne {k : κ} {t : List ρ} {row : ρ} (h : key row ≠ k) :
    find key k (t ++ [row]) = find key k t := by
  simp [find_append, h]

theorem isSome_find_append {k : κ} {t : List ρ} (row : ρ) (h : (find key k t).isSome) :
    (find key k (t ++ [row])).isSome := by
  rw [find_append, Option.isSome_or, h, Bool.true_or]

/-! ## Replacement -/

/-- A column on which the new row agrees with the old one is unchanged. -/
theorem map_put {γ : Type} {f : ρ → γ} {row : ρ} {t : List ρ}
    (h : ∀ r ∈ t, key r = key row → f r = f row) : (put key row t).map f = t.map f := by
  simp only [put, List.map_map]
  apply List.map_congr_left
  intro r hr
  by_cases hk : key r = key row
  · simp [hk, h r hr hk]
  · simp [hk]

theorem Keyed.put {κ' : Type} {key' : ρ → κ'} {t : List ρ} (ht : Keyed key' t) {row : ρ}
    (h : ∀ r ∈ t, key r = key row → key' r = key' row) : Keyed key' (put key row t) := by
  rw [Keyed, map_put h]
  exact ht

theorem Keyed.append {t : List ρ} (ht : Keyed key t) {row : ρ}
    (h : find key (key row) t = none) : Keyed key (t ++ [row]) := by
  rw [Keyed, List.map_append, List.map_singleton]
  refine List.Nodup.append ht (List.nodup_singleton _) ?_
  rw [List.disjoint_singleton]
  intro hmem
  obtain ⟨r, hr, hk⟩ := List.mem_map.mp hmem
  exact find_eq_none.mp h r hr hk

/-- A row of the new table is the replaced one or an old one stored elsewhere. -/
theorem mem_put {row r : ρ} {t : List ρ} :
    r ∈ put key row t ↔
      (r = row ∧ ∃ r' ∈ t, key r' = key row) ∨ (r ∈ t ∧ key r ≠ key row) := by
  simp only [put, List.mem_map]
  constructor
  · rintro ⟨r', hr', heq⟩
    by_cases hk : key r' = key row
    · rw [if_pos hk] at heq
      exact .inl ⟨heq.symm, r', hr', hk⟩
    · rw [if_neg hk] at heq
      exact .inr ⟨heq ▸ hr', heq ▸ hk⟩
  · rintro (⟨rfl, r', hr', hk⟩ | ⟨hr, hk⟩)
    · exact ⟨r', hr', if_pos hk⟩
    · exact ⟨r, hr, if_neg hk⟩

/-- Lookup under a key that the new row shares with the one it replaces. -/
theorem find_put {κ' : Type} [DecidableEq κ'] {key' : ρ → κ'} {k : κ'} {row : ρ} {t : List ρ}
    (h : ∀ r ∈ t, key r = key row → key' r = key' row) :
    find key' k (put key row t) =
      (find key' k t).map (fun r => if key r = key row then row else r) := by
  induction t with
  | nil => rfl
  | cons r t ih =>
      have iht := ih (fun r' hr' => h r' (List.mem_cons_of_mem _ hr'))
      simp only [find, put] at iht
      by_cases hr : key r = key row
      · have hk := h r List.mem_cons_self hr
        by_cases hrow : key' row = k <;> simp [find, put, hr, hk, hrow, iht]
      · by_cases hk : key' r = k <;> simp [find, put, hr, hk, iht]

theorem find_put_ne {k : κ} {row : ρ} (t : List ρ) (h : key row ≠ k) :
    find key k (put key row t) = find key k t := by
  induction t with
  | nil => rfl
  | cons r t ih =>
      by_cases hr : key r = key row
      · have hk : key r ≠ k := fun e => h (hr ▸ e)
        simpa [find, put, hr, h, hk] using ih
      · by_cases hk : key r = k
        · subst hk
          simp [find, put, hr]
        · simpa [find, put, hr, hk] using ih

theorem find_put_self {row r : ρ} {t : List ρ} (h : find key (key row) t = some r) :
    find key (key row) (put key row t) = some row := by
  induction t with
  | nil => simp [find] at h
  | cons r' t ih =>
      by_cases hk : key r' = key row
      · simp [find, put, hk]
      · have ht : find key (key row) t = some r := by simpa [find, hk] using h
        simpa [find, put, hk] using ih ht

/-- A row that replaces the one found under a key is found there, and the rows
under the other keys stay. -/
theorem find_put_cases {t : List ρ} {row old r : ρ} {k : κ}
    (hold : find key (key row) t = some old) (hr : find key k t = some r) :
    find key k (put key row t) = some r ∨
      (old = r ∧ find key k (put key row t) = some row) := by
  by_cases hk : key row = k
  · subst hk
    exact .inr ⟨Option.some.inj (hold.symm.trans hr), find_put_self hold⟩
  · exact .inl ((find_put_ne t hk).trans hr)

/-- Replacing a row by one that keeps the truth of `p` replaces it in the
selection as well. -/
theorem filter_put {p : ρ → Bool} {row : ρ} {t : List ρ}
    (h : ∀ r ∈ t, key r = key row → p r = p row) :
    (put key row t).filter p = put key row (t.filter p) := by
  induction t with
  | nil => rfl
  | cons r t ih =>
      have iht := ih (fun r' hr' => h r' (List.mem_cons_of_mem _ hr'))
      simp only [put] at iht
      by_cases hk : key r = key row
      · have hp := h r List.mem_cons_self hk
        cases hrow : p row <;> simp [put, hk, hp, hrow, iht]
      · cases hr : p r <;> simp [put, hk, hr, iht]

theorem put_of_forall_ne {row : ρ} {t : List ρ} (h : ∀ r ∈ t, key r ≠ key row) :
    put key row t = t := by
  conv_rhs => rw [← List.map_id t]
  apply List.map_congr_left
  intro r hr
  simp [h r hr]

theorem Keyed.put_self {t : List ρ} (ht : Keyed key t) {row : ρ} (h : row ∈ t) :
    Table.put key row t = t := by
  conv_rhs => rw [← List.map_id t]
  apply List.map_congr_left
  intro r hr
  by_cases hk : key r = key row
  · simp [ht.eq_of_key hr h hk]
  · simp [hk]

/-- Replacement commutes with a projection of the rows that keeps the key. -/
theorem map_put_comm {ρ' : Type} {key' : ρ' → κ} {f : ρ → ρ'} (hf : ∀ r, key' (f r) = key r)
    (row : ρ) (t : List ρ) : (put key row t).map f = put key' (f row) (t.map f) := by
  simp only [put, List.map_map]
  apply List.map_congr_left
  intro r _
  by_cases hk : key r = key row <;> simp [hf, hk]

/-- Lookup commutes with a projection of the rows that keeps the key. -/
theorem find_map {ρ' : Type} {key' : ρ' → κ} {f : ρ → ρ'} (hf : ∀ r, key' (f r) = key r)
    (k : κ) (t : List ρ) : find key' k (t.map f) = (find key k t).map f := by
  have hcomp : (fun r => decide (key' r = k)) ∘ f = fun r => decide (key r = k) := by
    funext r
    rw [Function.comp_apply, hf]
  rw [find, List.find?_map, hcomp]
  rfl

/-- A row that satisfies the condition of a selection is found in it. -/
theorem Keyed.find_filter {p : ρ → Bool} {t : List ρ} (ht : Keyed key t) {k : κ} {r : ρ}
    (h : find key k t = some r) (hp : p r = true) : find key k (t.filter p) = some r := by
  have hsub : Keyed key (t.filter p) := (List.filter_sublist.map key).nodup ht
  exact hsub.find_iff.mpr ⟨List.mem_filter.mpr ⟨mem_of_find h, hp⟩, key_of_find h⟩

/-- Replacing the last row of a keyed list keeps the rest. -/
theorem put_concat {t : List ρ} {row r : ρ} (h : Keyed key (t ++ [r])) (hk : key r = key row) :
    put key row (t ++ [r]) = t ++ [row] := by
  have hne : ∀ r' ∈ t, key r' ≠ key row := by
    intro r' hr' heq
    rw [Keyed, List.map_append, List.nodup_append] at h
    exact h.2.2 (key r') (List.mem_map_of_mem hr') (key r) (by simp) (heq.trans hk.symm)
  have hp : put key row t = t := put_of_forall_ne hne
  simp only [put] at hp
  simp [put, hp, hk]

/-! ## Rows with new keys -/

/-- The rows of a batch whose keys are not `seen`, the first of each key. -/
def fresh (key : ρ → κ) (seen : List κ) : List ρ → List ρ
  | [] => []
  | r :: t => if key r ∈ seen then fresh key seen t else r :: fresh key (key r :: seen) t

theorem fresh_congr {seen seen' : List κ} (h : ∀ k, k ∈ seen ↔ k ∈ seen') (t : List ρ) :
    fresh key seen t = fresh key seen' t := by
  induction t generalizing seen seen' with
  | nil => rfl
  | cons r t ih =>
      simp only [fresh, h]
      split
      · exact ih h
      · exact congrArg (r :: ·) (ih (fun k => by simp [h]))

theorem fresh_append (seen : List κ) (t u : List ρ) :
    fresh key seen (t ++ u) = fresh key seen t ++ fresh key (t.map key ++ seen) u := by
  induction t generalizing seen with
  | nil => rfl
  | cons r t ih =>
      simp only [List.cons_append, fresh]
      split
      · rename_i hr
        rw [ih]
        exact congrArg _ (fresh_congr (fun k => by grind) u)
      · rw [ih, List.cons_append]
        exact congrArg _ (congrArg _ (fresh_congr (fun k => by grind) u))

theorem mem_map_fresh {seen : List κ} {t : List ρ} {k : κ} :
    k ∈ (fresh key seen t).map key ↔ k ∈ t.map key ∧ k ∉ seen := by
  induction t generalizing seen with
  | nil => simp [fresh]
  | cons r t ih =>
      simp only [fresh]
      split
      · rw [ih]
        grind
      · simp only [List.map_cons, List.mem_cons, ih]
        grind

theorem fresh_sublist (seen : List κ) (t : List ρ) : (fresh key seen t).Sublist t := by
  induction t generalizing seen with
  | nil => exact List.Sublist.slnil
  | cons r t ih =>
      simp only [fresh]
      split
      · exact (ih _).cons r
      · exact (ih _).cons_cons r

theorem keyed_fresh (seen : List κ) (t : List ρ) : Keyed key (fresh key seen t) := by
  induction t generalizing seen with
  | nil => exact List.nodup_nil
  | cons r t ih =>
      simp only [fresh]
      split
      · exact ih seen
      · refine List.nodup_cons.mpr ⟨fun hmem => ?_, ih _⟩
        exact (mem_map_fresh.mp hmem).2 List.mem_cons_self

/-- Batches without two rows of one key can be filtered first, if the keys that
matter are seen in both. -/
theorem filter_fresh {p : ρ → Bool} {seen seen' : List κ} {t : List ρ}
    (hinj : ∀ a ∈ t, ∀ b ∈ t, key a = key b → a = b)
    (hseen : ∀ a ∈ t, p a = true → (key a ∈ seen ↔ key a ∈ seen')) :
    (fresh key seen t).filter p = fresh key seen' (t.filter p) := by
  induction t generalizing seen seen' with
  | nil => rfl
  | cons a t ih =>
      have hinj' : ∀ b ∈ t, ∀ c ∈ t, key b = key c → b = c := fun b hb c hc =>
        hinj b (List.mem_cons_of_mem a hb) c (List.mem_cons_of_mem a hc)
      have hseen' : ∀ b ∈ t, p b = true → (key b ∈ seen ↔ key b ∈ seen') := fun b hb =>
        hseen b (List.mem_cons_of_mem a hb)
      cases hp : p a with
      | true =>
          rw [List.filter_cons_of_pos hp]
          simp only [fresh, hseen a List.mem_cons_self hp]
          split
          · exact ih hinj' hseen'
          · rw [List.filter_cons_of_pos hp]
            exact congrArg (a :: ·) (ih hinj' (fun b hb hpb => by simp [hseen' b hb hpb]))
      | false =>
          rw [List.filter_cons_of_neg (by simp [hp])]
          simp only [fresh]
          split
          · exact ih hinj' hseen'
          · rw [List.filter_cons_of_neg (by simp [hp])]
            refine ih hinj' (fun b hb hpb => ?_)
            -- A row with the key of `a` would be `a`, which the filter drops.
            have hne : key b ≠ key a := by
              intro heq
              rw [hinj b (List.mem_cons_of_mem a hb) a List.mem_cons_self heq, hp] at hpb
              cases hpb
            simp [hne, hseen' b hb hpb]

/-! ## Sorting -/

theorem orderedInsert_last {r : ρ → ρ → Prop} [DecidableRel r] {a : ρ} {t : List ρ}
    (h : ∀ b ∈ t, ¬ r a b) : t.orderedInsert r a = t ++ [a] := by
  induction t with
  | nil => rfl
  | cons b t ih =>
      rw [List.orderedInsert, if_neg (h b List.mem_cons_self),
        ih (fun c hc => h c (List.mem_cons_of_mem b hc)), List.cons_append]

/-- Rows that stand in the opposite order are reversed. -/
theorem insertionSort_reverse {r : ρ → ρ → Prop} [DecidableRel r] {t : List ρ}
    (h : t.Pairwise (fun a b => ¬ r a b)) : t.insertionSort r = t.reverse := by
  induction t with
  | nil => rfl
  | cons a t ih =>
      obtain ⟨ha, ht⟩ := List.pairwise_cons.mp h
      rw [List.insertionSort_cons, ih ht, List.reverse_cons]
      exact orderedInsert_last (fun b hb => ha b (List.mem_reverse.mp hb))

end Table
