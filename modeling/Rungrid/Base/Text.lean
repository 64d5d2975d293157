-- SUMMARY: The functions of Go's `strings` package and of Python's `str` that the store and the worker use.
import Mathlib.Data.List.Infix
import Mathlib.Data.List.DropRight

/-!
# Text

Go strings that come from JSON, from protocol buffers or from the database are
valid UTF-8, so they are modelled as `String`. `len` is `String.utf8ByteSize`.
-/

namespace Text

/-- The character U+0000, which PostgreSQL stores neither in `text` nor in `jsonb`. -/
def nul : Char := Char.ofNat 0

/-- `strings.ContainsRune(s, 0)`. -/
def hasNul (s : String) : Bool := s.toList.contains nul

/-- `strings.HasPrefix`. -/
def startsWith (s p : String) : Bool := p.toList.isPrefixOf s.toList

/-- `strings.Contains`. -/
def contains (s sub : String) : Bool := decide (sub.toList <:+: s.toList)

/-- `strings.Trim` with a cutset of one character. -/
def trim (s : String) (c : Char) : String :=
  String.ofList ((s.toList.dropWhile (· = c)).reverse.dropWhile (· = c)).reverse

example : trim "//a/b/" '/' = "a/b" := by decide
example : contains "a/../b" ".." = true := by decide

/-- `str.strip` with one character. -/
def strip (s : String) (c : Char) : String :=
  String.ofList ((s.toList.dropWhile (· = c)).rdropWhile (· = c))

/-- `str.isspace` of a single character. -/
def isSpace (c : Char) : Bool :=
  let n := c.toNat
  (9 ≤ n && n ≤ 13) || (28 ≤ n && n ≤ 32) || n = 133 || n = 160 || n = 5760 ||
    (8192 ≤ n && n ≤ 8202) || n = 8232 || n = 8233 || n = 8239 || n = 8287 || n = 12288

/-- `str.rstrip` without an argument. -/
def rstrip (s : String) : String := String.ofList (s.toList.rdropWhile isSpace)

/-- A lower-case or upper-case hexadecimal digit. -/
def isHex (c : Char) : Bool :=
  c.isDigit || ('a' ≤ c && c ≤ 'f') || ('A' ≤ c && c ≤ 'F')

/-- The value of a hexadecimal digit of either case. -/
def hexVal (c : Char) : Nat :=
  if c.isDigit then c.toNat - 48 else if 'a' ≤ c then c.toNat - 87 else c.toNat - 55

/-- The lower-case digit of a value below sixteen. -/
def hexDigit (d : Nat) : Char := Nat.digitChar d

theorem hasNul_append (a b : String) : hasNul (a ++ b) = (hasNul a || hasNul b) := by
  simp only [hasNul, String.toList_append, List.contains_append]

theorem isHex_hexDigit : ∀ d < 16, isHex (hexDigit d) = true := by decide

theorem hexVal_hexDigit : ∀ d < 16, hexVal (hexDigit d) = d := by decide

theorem toNat_ofNat {n : Nat} (h : n.isValidChar) : (Char.ofNat n).toNat = n := by
  rw [Char.ofNat, dif_pos h]
  rfl

/-! ## Prefixes -/

theorem startsWith_iff {s p : String} : startsWith s p = true ↔ p.toList <+: s.toList := by
  simp [startsWith]

/-- Two texts that one text starts with are comparable. -/
theorem prefix_total {s p q : String} (hp : startsWith s p = true) (hq : startsWith s q = true) :
    startsWith p q = true ∨ startsWith q p = true := by
  simp only [startsWith_iff] at hp hq ⊢
  exact List.prefix_or_prefix_of_prefix hq hp

/-- A path that ends with a separator and begins another path stops before the last
segment of that path, or is the whole of it. -/
theorem prefix_segment {α : Type} {x y t : List α} {c : α} (hc : c ∉ t)
    (h : x ++ [c] <+: y ++ t ++ [c]) : x ++ [c] <+: y ∨ x = y ++ t := by
  obtain ⟨z, hz⟩ := h
  rcases List.eq_nil_or_concat z with rfl | ⟨z', d, rfl⟩
  · rw [List.append_nil] at hz
    exact .inr (List.append_inj' hz rfl).1
  · rw [List.concat_eq_append, ← List.append_assoc] at hz
    obtain ⟨hz, -⟩ := List.append_inj' hz rfl
    -- The separator that ends `x` is not in the last segment.
    rcases List.append_eq_append_iff.mp hz with ⟨u, hy, hu⟩ | ⟨u, hx, hu⟩
    · exact .inl ⟨u, hy.symm⟩
    · rcases List.eq_nil_or_concat u with rfl | ⟨u', e, rfl⟩
      · rw [List.append_nil] at hx
        exact .inl ⟨[], by rw [List.append_nil, hx]⟩
      · rw [List.concat_eq_append, ← List.append_assoc] at hx
        obtain ⟨-, he⟩ := List.append_inj' hx rfl
        obtain rfl : c = e := by simpa using he
        exact absurd (hu ▸ by simp) hc

/-- A pair of equal characters lies on one side of another character. -/
theorem pair_infix {α : Type} {c d : α} (hd : d ≠ c) {l m : List α} :
    [c, c] <:+: l ++ d :: m ↔ [c, c] <:+: l ∨ [c, c] <:+: m := by
  constructor
  · intro h
    induction l with
    | nil =>
        rw [List.nil_append, List.infix_cons_iff] at h
        rcases h with h | h
        · exact absurd (List.cons_prefix_cons.mp h).1.symm hd
        · exact .inr h
    | cons a l ih =>
        rw [List.cons_append, List.infix_cons_iff] at h
        rcases h with h | h
        · left
          obtain ⟨rfl, hsecond⟩ := List.cons_prefix_cons.mp h
          -- The second character of the pair comes before `d`.
          cases l with
          | nil => exact absurd (List.cons_prefix_cons.mp hsecond).1.symm hd
          | cons b l =>
              obtain ⟨rfl, -⟩ := List.cons_prefix_cons.mp hsecond
              exact ⟨[], l, rfl⟩
        · exact (ih h).imp_left (fun h => List.infix_cons_iff.mpr (.inr h))
  · rintro (h | h)
    · exact h.trans ⟨[], d :: m, by simp⟩
    · exact h.trans ⟨l ++ [d], [], by simp⟩

theorem not_pair_infix {α : Type} {c : α} {l : List α} (h : c ∉ l) : ¬ [c, c] <:+: l :=
  fun hi => h (hi.subset (by simp))

end Text
