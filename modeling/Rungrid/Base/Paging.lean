-- SUMMARY: Reading rows page by page when every query may order tied rows anew, and when the pages hold each row once.
import Mathlib.Data.List.Sort
import Mathlib.Data.List.Perm.Basic

/-!
# Pages

A query returns a segment of the rows, in an order that a preorder allows. Two queries
may order tied rows differently. If no boundary of a page falls between tied rows, the
pages hold each row once. If one does, the queries on its two sides can both return the
same row.
-/

namespace Paging

variable {α : Type} {r : α → α → Prop} {rows : List α}

/-- The rows in an order that `r` allows. -/
structure Order (r : α → α → Prop) (rows order : List α) : Prop where
  perm : order.Perm rows
  sorted : order.Pairwise r

/-- The rows of an order that a limit and an offset select. -/
def page (limit offset : Nat) (order : List α) : List α := (order.drop offset).take limit

/-- The pages from an offset on, up to the first empty one. There is no result if
`fuel` queries do not reach it. -/
def collect (limit : Nat) (fetch : Nat → List α) : Nat → Nat → Option (List α)
  | 0, _ => none
  | fuel + 1, offset =>
      if fetch offset = [] then some []
      else (collect limit fetch fuel (offset + limit)).map (fetch offset ++ ·)

/-- The answers to the queries for the pages. -/
def Answers (r : α → α → Prop) (rows : List α) (limit : Nat) (fetch : Nat → List α) : Prop :=
  ∀ offset, ∃ order, Order r rows order ∧ fetch offset = page limit offset order

/-- Whatever the answers, the pages hold each row as often as it is there. -/
def Partitions (r : α → α → Prop) (rows : List α) (limit : Nat) : Prop :=
  ∀ fetch, Answers r rows limit fetch →
    ∃ fuel out, collect limit fetch fuel 0 = some out ∧ out.Perm rows

/-! ## Orders by two columns -/

section Columns

variable {s t u : Int} {l m n : Nat}

theorem columns_total : (s < t ∨ s = t ∧ m ≤ n) ∨ (t < s ∨ t = s ∧ n ≤ m) := by omega

theorem columns_trans (h : s < t ∨ s = t ∧ l ≤ m) (h' : t < u ∨ t = u ∧ m ≤ n) :
    s < u ∨ s = u ∧ l ≤ n := by
  omega

theorem columns_antisymm (h : s < t ∨ s = t ∧ m ≤ n) (h' : t < s ∨ t = s ∧ n ≤ m) : m = n := by
  omega

end Columns

/-! ## Lower sets of a sorted list -/

/-- In a sorted list the elements of a lower set come first. -/
theorem filter_append_filter {p : α → Bool} (hp : ∀ a b, r a b → p b = true → p a = true)
    {l : List α} (h : l.Pairwise r) : l.filter p ++ l.filter (fun a => !p a) = l := by
  induction l with
  | nil => rfl
  | cons a l ih =>
      obtain ⟨hhead, htail⟩ := List.pairwise_cons.mp h
      cases ha : p a with
      | true => simp [ha, ih htail]
      | false =>
          have hnone : ∀ b ∈ l, p b = false := by
            intro b hb
            rw [Bool.eq_false_iff]
            intro hpb
            rw [hp a b (hhead b hb) hpb] at ha
            cases ha
          have hnil : l.filter p = [] := by simpa [List.filter_eq_nil_iff] using hnone
          have hall : l.filter (fun a => !p a) = l := by simpa [List.filter_eq_self] using hnone
          simp [ha, hnil, hall]

theorem take_countP {p : α → Bool} (hp : ∀ a b, r a b → p b = true → p a = true)
    {l : List α} (h : l.Pairwise r) : l.take (l.countP p) = l.filter p := by
  have hsplit := filter_append_filter hp h
  calc l.take (l.countP p)
      = (l.filter p ++ l.filter (fun a => !p a)).take (l.filter p).length := by
        rw [hsplit, List.countP_eq_length_filter]
    _ = l.filter p := List.take_left

theorem drop_countP {p : α → Bool} (hp : ∀ a b, r a b → p b = true → p a = true)
    {l : List α} (h : l.Pairwise r) : l.drop (l.countP p) = l.filter (fun a => !p a) := by
  have hsplit := filter_append_filter hp h
  calc l.drop (l.countP p)
      = (l.filter p ++ l.filter (fun a => !p a)).drop (l.filter p).length := by
        rw [hsplit, List.countP_eq_length_filter]
    _ = l.filter (fun a => !p a) := List.drop_left

section Boundaries

variable [DecidableRel r]

/-- How many rows come strictly before `x`. -/
def below (r : α → α → Prop) [DecidableRel r] (rows : List α) (x : α) : Nat :=
  rows.countP (fun y => r y x ∧ ¬ r x y)

/-- How many rows come before `x` or are tied with it. -/
def upTo (r : α → α → Prop) [DecidableRel r] (rows : List α) (x : α) : Nat :=
  rows.countP (fun y => r y x)

/-- There are tied rows on both sides of position `m`. -/
def Splits (r : α → α → Prop) [DecidableRel r] (rows : List α) (m : Nat) : Prop :=
  ∃ x ∈ rows, below r rows x < m ∧ m < upTo r rows x

instance (m : Nat) : Decidable (Splits r rows m) := by
  unfold Splits
  infer_instance

/-! ## Positions in an order -/

variable {order order' : List α} {x : α} {m : Nat}

theorem Order.below_eq (h : Order r rows order) (x : α) : below r order x = below r rows x :=
  h.perm.countP_eq _

theorem Order.upTo_eq (h : Order r rows order) (x : α) : upTo r order x = upTo r rows x :=
  h.perm.countP_eq _

variable [IsTrans α r]

theorem lower_below (x : α) (a b : α) (hab : r a b)
    (hb : decide (r b x ∧ ¬ r x b) = true) : decide (r a x ∧ ¬ r x a) = true := by
  simp only [decide_eq_true_eq] at hb ⊢
  exact ⟨trans_of r hab hb.1, fun hxa => hb.2 (trans_of r hxa hab)⟩

theorem lower_upTo (x : α) (a b : α) (hab : r a b) (hb : decide (r b x) = true) :
    decide (r a x) = true := by
  simp only [decide_eq_true_eq] at hb ⊢
  exact trans_of r hab hb

/-- What stands at a position below the number of rows up to `x` is not after `x`. -/
theorem Order.le_of_lt_upTo (h : Order r rows order) (hm : m < order.length)
    (hx : m < upTo r rows x) : r order[m] x := by
  have htake : order.take (upTo r rows x) = order.filter (fun y => r y x) := by
    rw [← h.upTo_eq]
    exact take_countP (lower_upTo x) h.sorted
  have hmem : order[m] ∈ order.take (upTo r rows x) := List.mem_take_iff_getElem.mpr ⟨m, by omega, rfl⟩
  rw [htake] at hmem
  simpa using (List.mem_filter.mp hmem).2

/-- What stands at a position from the number of rows before `x` on is not strictly
before `x`. -/
theorem Order.ge_of_below_le [Std.Total r] (h : Order r rows order) (hm : m < order.length)
    (hx : below r rows x ≤ m) : r x order[m] := by
  have hdrop : order.drop (below r rows x)
      = order.filter (fun y => !decide (r y x ∧ ¬ r x y)) := by
    rw [← h.below_eq]
    exact drop_countP (lower_below x) h.sorted
  have hmem : order[m] ∈ order.drop (below r rows x) :=
    List.mem_drop_iff_getElem.mpr ⟨m - below r rows x, by omega, by congr 1; omega⟩
  rw [hdrop] at hmem
  have hnot : ¬ (r order[m] x ∧ ¬ r x order[m]) :=
    of_decide_eq_false (by simpa only [Bool.not_eq_true'] using (List.mem_filter.mp hmem).2)
  rcases total_of r x order[m] with hle | hge
  · exact hle
  · exact not_not.mp (fun hno => hnot ⟨hge, hno⟩)

/-- A row stands between the rows strictly before it and those after it. -/
theorem Order.position [Std.Total r] (h : Order r rows order) (hm : m < order.length) :
    below r rows order[m] ≤ m ∧ m < upTo r rows order[m] := by
  have hrefl : r order[m] order[m] := (total_of r order[m] order[m]).elim id id
  constructor
  · by_contra hlt
    have htake : order.take (below r rows order[m])
        = order.filter (fun y => r y order[m] ∧ ¬ r order[m] y) := by
      conv_lhs => rw [← h.below_eq]
      exact take_countP (lower_below _) h.sorted
    have hmem : order[m] ∈ order.take (below r rows order[m]) :=
      List.mem_take_iff_getElem.mpr ⟨m, by omega, rfl⟩
    rw [htake] at hmem
    simpa [hrefl] using (List.mem_filter.mp hmem).2
  · by_contra hge
    have hdrop : order.drop (upTo r rows order[m]) = order.filter (fun y => !decide (r y order[m])) := by
      conv_lhs => rw [← h.upTo_eq]
      exact drop_countP (lower_upTo _) h.sorted
    have hmem : order[m] ∈ order.drop (upTo r rows order[m]) :=
      List.mem_drop_iff_getElem.mpr ⟨m - upTo r rows order[m], by omega, by congr 1; omega⟩
    rw [hdrop] at hmem
    simpa [hrefl] using (List.mem_filter.mp hmem).2

/-! ## Boundaries between pages -/

variable [Std.Total r]

/-- Up to a position that splits no tied rows, all orders have the same rows. -/
theorem Order.take_perm (h : Order r rows order) (h' : Order r rows order')
    (hm : ¬ Splits r rows m) : (order.take m).Perm (order'.take m) := by
  by_cases hlen : m < order.length
  · obtain ⟨hbelow, hupTo⟩ := h.position hlen
    have hmem : order[m] ∈ rows := h.perm.mem_iff.mp (List.getElem_mem hlen)
    have heq : below r rows order[m] = m := by
      by_contra hne
      exact hm ⟨order[m], hmem, by omega, hupTo⟩
    -- The rows before the position are those strictly before the row at it.
    have htake : ∀ {l}, Order r rows l →
        l.take m = l.filter (fun y => r y order[m] ∧ ¬ r order[m] y) := by
      intro l hl
      rw [← take_countP (lower_below _) hl.sorted]
      exact congrArg (l.take ·) (heq.symm.trans (hl.below_eq _).symm)
    rw [htake h, htake h']
    exact (h.perm.trans h'.perm.symm).filter _
  · have hlen' : order'.length = order.length := (h'.perm.trans h.perm.symm).length_eq
    rw [List.take_of_length_le (by omega), List.take_of_length_le (by omega)]
    exact h.perm.trans h'.perm.symm

/-- Around a position that splits tied rows two tied rows are neighbours. -/
theorem Order.tied (h : Order r rows order) (hm : Splits r rows m) :
    ∃ l a b l', order = l ++ a :: b :: l' ∧ l.length + 1 = m ∧ r b a := by
  obtain ⟨x, -, hbelow, hupTo⟩ := hm
  have hlen : upTo r rows x ≤ order.length := by
    rw [h.perm.length_eq]
    exact List.countP_le_length
  have hprev : m - 1 < order.length := by omega
  have hcur : m < order.length := by omega
  refine ⟨order.take (m - 1), order[m - 1], order[m], order.drop (m + 1), ?_, ?_, ?_⟩
  · have hnext : m - 1 + 1 = m := by omega
    conv_lhs => rw [← List.take_append_drop (m - 1) order, List.drop_eq_getElem_cons hprev]
    simp only [hnext, List.drop_eq_getElem_cons hcur]
  · rw [List.length_take]
    omega
  · exact trans_of r (h.le_of_lt_upTo hcur hupTo) (h.ge_of_below_le hprev (by omega))

/-- Rows that are not tied are never split. -/
theorem not_splits (hanti : ∀ a ∈ rows, ∀ b ∈ rows, r a b → r b a → a = b) (hnodup : rows.Nodup) :
    ¬ Splits r rows m := by
  intro hm
  have h : Order r rows (rows.insertionSort r) :=
    ⟨List.perm_insertionSort r rows, List.pairwise_insertionSort r rows⟩
  obtain ⟨l, a, b, l', heq, -, hba⟩ := h.tied hm
  have hsorted := h.sorted
  have hnodup' := h.perm.nodup_iff.mpr hnodup
  have hmem : ∀ y ∈ [a, b], y ∈ rows := by
    intro y hy
    refine h.perm.mem_iff.mp ?_
    rw [heq]
    simp only [List.mem_cons, List.not_mem_nil, or_false] at hy
    rcases hy with rfl | rfl <;> simp
  rw [heq, List.pairwise_append, List.pairwise_cons] at hsorted
  have hab : r a b := hsorted.2.1.1 b List.mem_cons_self
  obtain rfl := hanti a (hmem a (by simp)) b (hmem b (by simp)) hab hba
  rw [heq, List.nodup_append, List.nodup_cons] at hnodup'
  exact hnodup'.2.1.1 List.mem_cons_self

end Boundaries

/-! ## Collecting the pages -/

section Collect

variable {limit : Nat} {fetch : Nat → List α}

theorem collect_succ {fuel offset : Nat} (h : fetch offset ≠ []) :
    collect limit fetch (fuel + 1) offset
      = (collect limit fetch fuel (offset + limit)).map (fetch offset ++ ·) := if_neg h

/-- What follows a page that is not empty. -/
theorem collect_cons {fuel offset : Nat} {out : List α}
    (h : collect limit fetch fuel offset = some out) (hpage : fetch offset ≠ []) :
    ∃ fuel' rest, out = fetch offset ++ rest ∧ collect limit fetch fuel' (offset + limit) = some rest := by
  cases fuel with
  | zero => cases h
  | succ fuel =>
      rw [collect_succ hpage] at h
      obtain ⟨rest, hrest, rfl⟩ := Option.map_eq_some_iff.mp h
      exact ⟨fuel, rest, rfl, hrest⟩

/-- What follows `k` pages that are not empty. -/
theorem collect_skip {fuel : Nat} {out : List α} (k : Nat) (h : collect limit fetch fuel 0 = some out)
    (hpages : ∀ i < k, fetch (i * limit) ≠ []) :
    ∃ fuel' pre rest, out = pre ++ rest ∧ collect limit fetch fuel' (k * limit) = some rest := by
  induction k with
  | zero => exact ⟨fuel, [], out, rfl, by simpa using h⟩
  | succ k ih =>
      obtain ⟨fuel', pre, rest, rfl, hrest⟩ := ih (fun i hi => hpages i (by omega))
      obtain ⟨fuel'', rest', rfl, hrest'⟩ := collect_cons hrest (hpages k (by omega))
      refine ⟨fuel'', pre ++ fetch (k * limit), rest', by simp, ?_⟩
      rw [Nat.succ_mul]
      exact hrest'

theorem mem_page (limit offset : Nat) (order : List α) {i : Nat} (hi : i < order.length)
    (hlow : offset ≤ i) (hhigh : i < offset + limit) : order[i] ∈ page limit offset order := by
  refine List.mem_take_iff_getElem.mpr ⟨i - offset, ?_, ?_⟩
  · rw [List.length_drop]
    omega
  · rw [List.getElem_drop]
    congr 1
    omega

theorem page_eq_nil {offset : Nat} {order : List α} (hlimit : 0 < limit) :
    page limit offset order = [] ↔ order.length ≤ offset := by
  rw [page, List.take_eq_nil_iff, List.drop_eq_nil_iff]
  omega

theorem Answers.eq_nil_iff (h : Answers r rows limit fetch) (hlimit : 0 < limit) (offset : Nat) :
    fetch offset = [] ↔ rows.length ≤ offset := by
  obtain ⟨order, horder, hpage⟩ := h offset
  rw [hpage, page_eq_nil hlimit, horder.perm.length_eq]

/-- Tied rows around a boundary can be answered so that one of them is on both pages. -/
theorem exists_repeated {k : Nat} {order l l' : List α} {a b : α} (horder : Order r rows order)
    (heq : order = l ++ a :: b :: l') (hlen : l.length + 1 = (k + 1) * limit) (hba : r b a)
    (hlimit : 0 < limit) :
    ∃ fetch, Answers r rows limit fetch ∧ a ∈ fetch (k * limit) ∧ a ∈ fetch (k * limit + limit) := by
  subst heq
  -- From the boundary on the two rows are exchanged.
  have hswapped : Order r rows (l ++ b :: a :: l') := by
    refine ⟨((List.Perm.swap a b l').append_left l).trans horder.perm, ?_⟩
    have hsorted := horder.sorted
    simp only [List.pairwise_append, List.pairwise_cons, List.mem_cons, forall_eq_or_imp] at hsorted ⊢
    obtain ⟨hl, ⟨⟨-, ha⟩, hb, hl'⟩, hcross⟩ := hsorted
    exact ⟨hl, ⟨⟨hba, hb⟩, ha, hl'⟩, fun c hc =>
      ⟨(hcross c hc).2.1, (hcross c hc).1, (hcross c hc).2.2⟩⟩
  rw [Nat.succ_mul] at hlen
  refine ⟨fun offset => page limit offset
    (if offset < k * limit + limit then l ++ a :: b :: l' else l ++ b :: a :: l'), ?_, ?_, ?_⟩
  · intro offset
    refine ⟨_, ?_, rfl⟩
    split
    · exact horder
    · exact hswapped
  · dsimp only
    rw [if_pos (by omega)]
    have hmem := mem_page limit (k * limit) (l ++ a :: b :: l') (i := l.length) (by simp) (by omega)
      (by omega)
    simpa using hmem
  · dsimp only
    rw [if_neg (by omega)]
    have hmem := mem_page limit (k * limit + limit) (l ++ b :: a :: l') (i := l.length + 1) (by simp)
      (by omega) (by omega)
    simpa using hmem

variable [DecidableRel r] [IsTrans α r] [Std.Total r]

/-- Where no boundary splits tied rows, the pages from a boundary on complete the rows
before it. -/
theorem collect_perm {order : List α} (hlimit : 0 < limit) (hfetch : Answers r rows limit fetch)
    (hsplits : ∀ k, ¬ Splits r rows (k * limit)) (horder : Order r rows order) (fuel : Nat) {k : Nat}
    (hfuel : rows.length ≤ (k + fuel) * limit) :
    ∃ out, collect limit fetch (fuel + 1) (k * limit) = some out ∧
      (order.take (k * limit) ++ out).Perm rows := by
  have hlast : ∀ {fuel k}, rows.length ≤ k * limit →
      ∃ out, collect limit fetch (fuel + 1) (k * limit) = some out ∧
        (order.take (k * limit) ++ out).Perm rows := by
    intro fuel k hle
    refine ⟨[], if_pos ((hfetch.eq_nil_iff hlimit _).mpr hle), ?_⟩
    rw [List.append_nil, List.take_of_length_le (horder.perm.length_eq ▸ hle)]
    exact horder.perm
  induction fuel generalizing k with
  | zero => exact hlast hfuel
  | succ fuel ih =>
      by_cases hle : rows.length ≤ k * limit
      · exact hlast hle
      · have hpage : fetch (k * limit) ≠ [] := fun hnil => hle ((hfetch.eq_nil_iff hlimit _).mp hnil)
        have hnext : k + 1 + fuel = k + (fuel + 1) := by omega
        obtain ⟨rest, hrest, hperm⟩ := ih (k := k + 1) (hnext ▸ hfuel)
        rw [Nat.succ_mul] at hrest
        refine ⟨fetch (k * limit) ++ rest, by rw [collect_succ hpage, hrest]; rfl, ?_⟩
        -- The page continues the rows of its own order, which are the same up to a boundary.
        obtain ⟨o, ho, heq⟩ := hfetch (k * limit)
        have hsegment : o.take (k * limit) ++ fetch (k * limit) = o.take ((k + 1) * limit) := by
          rw [heq, page, Nat.succ_mul, List.take_add]
        have hboundary : (order.take (k * limit) ++ fetch (k * limit)).Perm (order.take ((k + 1) * limit)) :=
          ((horder.take_perm ho (hsplits k)).append_right _).trans
            (hsegment ▸ ho.take_perm horder (hsplits (k + 1)))
        rw [← List.append_assoc]
        exact (hboundary.append_right rest).trans hperm

/-- Where a boundary splits tied rows, the pages can hold a row twice. -/
theorem not_partitions {k : Nat} (hlimit : 0 < limit) (hnodup : rows.Nodup)
    (hsplits : Splits r rows (k * limit)) : ¬ Partitions r rows limit := by
  intro hpart
  have horder : Order r rows (rows.insertionSort r) :=
    ⟨List.perm_insertionSort r rows, List.pairwise_insertionSort r rows⟩
  obtain ⟨l, a, b, l', heq, hlen, hba⟩ := horder.tied hsplits
  obtain ⟨k, rfl⟩ : ∃ n, k = n + 1 := by
    cases k with
    | zero => simp at hlen
    | succ n => exact ⟨n, rfl⟩
  obtain ⟨fetch, hanswers, hleft, hright⟩ := exists_repeated horder heq hlen hba hlimit
  obtain ⟨fuel, out, hout, hperm⟩ := hpart fetch hanswers
  have hleft' := List.ne_nil_of_mem hleft
  have hpages : ∀ i < k, fetch (i * limit) ≠ [] := by
    intro i hi hnil
    have hle := (hanswers.eq_nil_iff hlimit _).mp hnil
    have hmul : i * limit ≤ k * limit := Nat.mul_le_mul_right limit (by omega)
    exact hleft' ((hanswers.eq_nil_iff hlimit _).mpr (hle.trans hmul))
  obtain ⟨_, pre, _, rfl, hrest⟩ := collect_skip k hout hpages
  obtain ⟨_, _, rfl, hnext⟩ := collect_cons hrest hleft'
  obtain ⟨_, rest, rfl, -⟩ := collect_cons hnext (List.ne_nil_of_mem hright)
  have hdistinct := hperm.nodup_iff.mpr hnodup
  have htwo := (List.nodup_append.mp (List.nodup_append.mp hdistinct).2.1).2.2
  exact htwo a hleft a (List.mem_append_left rest hright) rfl

/-- The pages hold each row once, whatever the answers, exactly if no boundary between
pages splits tied rows. -/
theorem partitions_iff (hlimit : 0 < limit) (hnodup : rows.Nodup) :
    Partitions r rows limit ↔ ∀ k, ¬ Splits r rows (k * limit) := by
  constructor
  · intro hpart k hsplits
    exact not_partitions hlimit hnodup hsplits hpart
  · intro hsplits fetch hfetch
    have horder : Order r rows (rows.insertionSort r) :=
      ⟨List.perm_insertionSort r rows, List.pairwise_insertionSort r rows⟩
    have hfuel : rows.length ≤ (0 + rows.length) * limit := by
      rw [Nat.zero_add]
      exact Nat.le_mul_of_pos_right _ hlimit
    obtain ⟨out, hout, hperm⟩ := collect_perm hlimit hfetch hsplits horder rows.length hfuel
    rw [Nat.zero_mul] at hout hperm
    exact ⟨_, out, hout, hperm⟩

end Collect

end Paging
