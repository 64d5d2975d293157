-- SUMMARY: Dictionaries as lists of entries in insertion order, with lookup, assignment, update and removal.
import Rungrid.Base.Table

/-!
# Dictionaries

A dictionary is the list of its entries in insertion order, as in Python. Assigning
to a key that is present replaces the value in place, assigning to another key
appends an entry.
-/

namespace Dict

variable {κ ν : Type} [DecidableEq κ]

def get (k : κ) (d : List (κ × ν)) : Option ν := (Table.find Prod.fst k d).map Prod.snd

/-- `d[k] = v`. -/
def set (d : List (κ × ν)) (k : κ) (v : ν) : List (κ × ν) :=
  if (Table.find Prod.fst k d).isSome then Table.put Prod.fst (k, v) d else d ++ [(k, v)]

/-- `d.update(es)`, and `d | es` as a new dictionary. -/
def update (d es : List (κ × ν)) : List (κ × ν) := es.foldl (fun d e => set d e.1 e.2) d

/-- `d.pop(k, None)`. -/
def pop (d : List (κ × ν)) (k : κ) : List (κ × ν) := d.filter (fun e => e.1 ≠ k)

variable {d es : List (κ × ν)} {k : κ} {v : ν}

theorem mem_of_get (h : get k d = some v) : (k, v) ∈ d := by
  obtain ⟨e, he, rfl⟩ := Option.map_eq_some_iff.mp h
  rw [← Table.key_of_find he]
  exact Table.mem_of_find he

theorem get_set (i : κ) : get i (set d k v) = if k = i then some v else get i d := by
  unfold get set
  split
  · rename_i hsome
    obtain ⟨e, he⟩ := Option.isSome_iff_exists.mp hsome
    by_cases hk : k = i
    · subst hk
      have hself : Table.find Prod.fst (k, v).1 (Table.put Prod.fst (k, v) d) = some (k, v) :=
        Table.find_put_self he
      rw [hself, if_pos rfl]
      rfl
    · rw [Table.find_put_ne d (by exact hk), if_neg hk]
  · rename_i hnone
    by_cases hk : k = i
    · subst hk
      have hself : Table.find Prod.fst (k, v).1 (d ++ [(k, v)]) = some (k, v) :=
        Table.find_append_self (by simpa using hnone)
      rw [hself, if_pos rfl]
      rfl
    · rw [Table.find_append_ne (by exact hk), if_neg hk]

theorem get_pop (i : κ) : get i (pop d k) = if k = i then none else get i d := by
  unfold get pop Table.find
  rw [List.find?_filter]
  by_cases hk : k = i
  · subst hk
    simp
  · rw [if_neg hk]
    congr 2
    funext e
    by_cases he : e.1 = i
    · simp [he, Ne.symm hk]
    · simp [he]

theorem mem_set {e : κ × ν} (h : e ∈ set d k v) : e = (k, v) ∨ e ∈ d := by
  unfold set at h
  split at h
  · rcases Table.mem_put.mp h with ⟨h, -⟩ | ⟨h, -⟩
    · exact .inl h
    · exact .inr h
  · rcases List.mem_append.mp h with h | h
    · exact .inr h
    · exact .inl (List.mem_singleton.mp h)

/-- After an assignment a key has no other value. -/
theorem mem_set_cases {e : κ × ν} (h : e ∈ set d k v) : e = (k, v) ∨ e ∈ d ∧ e.1 ≠ k := by
  unfold set at h
  split at h
  · exact (Table.mem_put.mp h).imp And.left id
  · rename_i hnone
    have hne := Table.find_eq_none.mp (Option.not_isSome_iff_eq_none.mp hnone)
    rcases List.mem_append.mp h with h | h
    · exact .inr ⟨h, hne e h⟩
    · exact .inl (List.mem_singleton.mp h)

theorem mem_set_self (d : List (κ × ν)) (k : κ) (v : ν) : (k, v) ∈ set d k v := by
  refine mem_of_get ?_
  rw [get_set, if_pos rfl]

theorem mem_update {e : κ × ν} (h : e ∈ update d es) : e ∈ d ∨ e ∈ es := by
  induction es generalizing d with
  | nil => exact .inl h
  | cons f es ih =>
      rcases ih h with h | h
      · rcases mem_set h with rfl | h
        · exact .inr List.mem_cons_self
        · exact .inl h
      · exact .inr (List.mem_cons_of_mem f h)

theorem get_update_of_forall_ne (h : ∀ e ∈ es, e.1 ≠ k) : get k (update d es) = get k d := by
  induction es generalizing d with
  | nil => rfl
  | cons f es ih =>
      have hrest := ih (d := set d f.1 f.2) (fun e he => h e (List.mem_cons_of_mem f he))
      rw [get_set, if_neg (h f List.mem_cons_self)] at hrest
      exact hrest

/-- An entry of the update, if its key occurs once. -/
theorem get_update_of_mem (hkeys : Table.Keyed Prod.fst es) (h : (k, v) ∈ es) :
    get k (update d es) = some v := by
  induction es generalizing d with
  | nil => cases h
  | cons f es ih =>
      obtain ⟨hf, hkeys⟩ := List.nodup_cons.mp hkeys
      rcases List.mem_cons.mp h with rfl | h
      · have hrest : get k (update (set d k v) es) = get k (set d k v) := by
          refine get_update_of_forall_ne (fun e he heq => hf ?_)
          exact List.mem_map.mpr ⟨e, he, heq⟩
        rw [get_set, if_pos rfl] at hrest
        exact hrest
      · exact ih hkeys h

/-! ## Mapping the values -/

section Map

variable {μ : Type} (f : ν → μ)

theorem find_map (d : List (κ × ν)) (k : κ) :
    Table.find Prod.fst k (d.map (Prod.map id f)) = (Table.find Prod.fst k d).map (Prod.map id f) := by
  unfold Table.find
  rw [List.find?_map]
  rfl

theorem set_map (d : List (κ × ν)) (k : κ) (v : ν) :
    set (d.map (Prod.map id f)) k (f v) = (set d k v).map (Prod.map id f) := by
  unfold set
  rw [find_map, Option.isSome_map]
  split
  · unfold Table.put
    rw [List.map_map, List.map_map]
    refine List.map_congr_left (fun e _ => ?_)
    by_cases he : e.1 = k
    · simp [he]
    · simp [he]
  · rw [List.map_append]
    rfl

theorem update_map (d es : List (κ × ν)) :
    update (d.map (Prod.map id f)) (es.map (Prod.map id f)) = (update d es).map (Prod.map id f) := by
  induction es generalizing d with
  | nil => rfl
  | cons e es ih =>
      have hrest := ih (set d e.1 e.2)
      rw [← set_map] at hrest
      exact hrest

theorem pop_map (d : List (κ × ν)) (k : κ) :
    pop (d.map (Prod.map id f)) k = (pop d k).map (Prod.map id f) := by
  unfold pop
  rw [List.filter_map]
  rfl

end Map

end Dict
