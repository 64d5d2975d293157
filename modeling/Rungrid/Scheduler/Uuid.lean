-- SUMMARY: UUIDs as PostgreSQL stores them, their text, the patterns that admit a text, and `scheduler.ID`.
import Rungrid.Base.Text
import Mathlib.Algebra.Group.Nat.Defs
import Mathlib.Tactic.Common

/-!
# UUIDs

A `uuid` column stores 128 bits. PostgreSQL reads a hexadecimal text in either
letter case and always writes lower case, so two different texts can name one
row. Both `idPattern` (store) and `uuid` (REST handler) admit exactly the texts
of the form 8-4-4-4-12.
-/

namespace Rungrid

structure Uuid where
  bits : BitVec 128
deriving DecidableEq, Repr

namespace Uuid

/-- The position of each character of a UUID text: the index of its digit, or a
dash. -/
def layout : List (Option Nat) :=
  (List.range 8).map some ++ none :: ((List.range' 8 4).map some ++ none ::
    ((List.range' 12 4).map some ++ none :: ((List.range' 16 4).map some ++ none ::
      (List.range' 20 12).map some)))

/-- The `i`-th hexadecimal digit, from the most significant one. -/
def digit (u : Uuid) (i : Nat) : Nat := u.bits.toNat / 16 ^ (31 - i) % 16

def slotChar (u : Uuid) : Option Nat → Char
  | some i => Text.hexDigit (u.digit i)
  | none => '-'

/-- The text PostgreSQL writes for a UUID. -/
def text (u : Uuid) : String := String.ofList (layout.map u.slotChar)

/-- Whether the characters fill the slots, digit for digit and dash for dash. -/
def fits : List (Option Nat) → List Char → Bool
  | [], [] => true
  | some _ :: l, c :: cs => Text.isHex c && fits l cs
  | none :: l, c :: cs => c = '-' && fits l cs
  | _, _ => false

/-- `^[a-fA-F0-9]{8}-[a-fA-F0-9]{4}-[a-fA-F0-9]{4}-[a-fA-F0-9]{4}-[a-fA-F0-9]{12}$`. -/
def idPattern (s : String) : Bool := fits layout s.toList

/-- Read a text of that form as a `uuid` value, in either letter case. -/
def parse (s : String) : Option Uuid :=
  if idPattern s then
    some ⟨BitVec.ofNat 128
      ((s.toList.filter (· ≠ '-')).foldl (fun n c => n * 16 + Text.hexVal c) 0)⟩
  else none

theorem fits_map (u : Uuid) (l : List (Option Nat)) : fits l (l.map u.slotChar) = true := by
  induction l with
  | nil => rfl
  | cons slot l ih =>
      cases slot with
      | none => simp [fits, slotChar, ih]
      | some i =>
          have hd : u.digit i < 16 := Nat.mod_lt _ (by decide)
          simp [fits, slotChar, Text.isHex_hexDigit _ hd, ih]

/-- The text the server writes for a UUID passes the pattern. -/
theorem idPattern_text (u : Uuid) : idPattern u.text = true := by
  rw [idPattern, text, String.toList_ofList]
  exact fits_map u layout

theorem parse_isSome {s : String} : (parse s).isSome = idPattern s := by
  unfold parse
  cases idPattern s <;> rfl

/-- A text of a UUID has the length of the layout, and its characters are hexadecimal
digits and dashes. -/
theorem fits_chars {l : List (Option Nat)} {cs : List Char} (h : fits l cs = true) :
    cs.length = l.length ∧ ∀ c ∈ cs, Text.isHex c = true ∨ c = '-' := by
  induction l generalizing cs with
  | nil =>
      cases cs with
      | nil => simp
      | cons c cs => cases h
  | cons slot l ih =>
      cases cs with
      | nil => cases slot <;> cases h
      | cons c cs =>
          cases slot with
          | none =>
              simp only [fits, Bool.and_eq_true, decide_eq_true_eq] at h
              obtain ⟨hlen, hall⟩ := ih h.2
              exact ⟨by simp [hlen], List.forall_mem_cons.mpr ⟨.inr h.1, hall⟩⟩
          | some i =>
              simp only [fits, Bool.and_eq_true] at h
              obtain ⟨hlen, hall⟩ := ih h.2
              exact ⟨by simp [hlen], List.forall_mem_cons.mpr ⟨.inl h.1, hall⟩⟩

theorem parse_chars {t : String} {u : Uuid} (h : parse t = some u) :
    t.toList.length = 36 ∧ '/' ∉ t.toList := by
  have hfits : fits layout t.toList = true := by
    rw [← idPattern, ← parse_isSome, h]
    rfl
  obtain ⟨hlen, hall⟩ := fits_chars hfits
  refine ⟨hlen, fun hmem => ?_⟩
  rcases hall '/' hmem with hx | hx
  · exact absurd hx (by decide)
  · cases hx

theorem text_length (u : Uuid) : u.text.toList.length = 36 := by
  rw [text, String.toList_ofList, List.length_map]
  rfl

/-- The characters of a text without its dashes are its digits. -/
private theorem filter_slotChar (u : Uuid) (l : List (Option Nat)) :
    (l.map u.slotChar).filter (· ≠ '-')
      = (l.filterMap id).map (fun i => Text.hexDigit (u.digit i)) := by
  induction l with
  | nil => rfl
  | cons slot l ih =>
      cases slot with
      | none => simpa [slotChar] using ih
      | some i =>
          have hdash : Text.hexDigit (u.digit i) ≠ '-' := by
            intro heq
            have hx := Text.isHex_hexDigit (u.digit i) (Nat.mod_lt _ (by decide))
            rw [heq] at hx
            exact absurd hx (by decide)
          simpa [slotChar, hdash] using ih

/-- Reading the first `k` digits gives the number without the digits after them. -/
private theorem foldl_digits (u : Uuid) {k : Nat} (hk : k ≤ 32) :
    ((List.range k).map (fun i => Text.hexDigit (u.digit i))).foldl
      (fun n c => n * 16 + Text.hexVal c) 0 = u.bits.toNat / 16 ^ (32 - k) := by
  induction k with
  | zero => exact (Nat.div_eq_of_lt (by simpa using u.bits.isLt)).symm
  | succ k ih =>
      have hstep : 32 - k = (31 - k) + 1 := by omega
      have hnext : 32 - (k + 1) = 31 - k := by omega
      rw [List.range_succ, List.map_append, List.foldl_append, ih (by omega), hnext, hstep,
        Nat.pow_succ, ← Nat.div_div_eq_div_mul]
      have hval : Text.hexVal (Text.hexDigit (u.digit k)) = u.bits.toNat / 16 ^ (31 - k) % 16 :=
        Text.hexVal_hexDigit (u.digit k) (Nat.mod_lt _ (by decide))
      simp only [List.map_cons, List.map_nil, List.foldl_cons, List.foldl_nil, hval]
      exact Nat.div_add_mod' _ 16

/-- A UUID is read back from its text. -/
theorem parse_text (u : Uuid) : parse u.text = some u := by
  have hlayout : layout.filterMap id = List.range 32 := by decide
  rw [parse, if_pos (idPattern_text u), text, String.toList_ofList, filter_slotChar, hlayout,
    foldl_digits u (Nat.le_refl 32)]
  simp

theorem text_injective : Function.Injective text := by
  intro u v h
  have hparse := parse_text v
  rw [← h, parse_text] at hparse
  exact Option.some.inj hparse

/-- `scheduler.ID`: sixteen random bytes with the version and variant bits of a
random UUID. -/
def ID (b : BitVec 128) : Uuid :=
  ⟨(b &&& 0xffffffffffff0fff3fffffffffffffff#128) ||| 0x00000000000040008000000000000000#128⟩

example : (ID 0).text = "00000000-0000-4000-8000-000000000000" := by decide +kernel
example : parse "0000ABcd-0000-4000-8000-000000000000" =
    parse "0000abcd-0000-4000-8000-000000000000" := by decide +kernel

/-- The order of a `uuid` column. -/
def le (a b : Uuid) : Prop := a.bits.toNat ≤ b.bits.toNat

instance : DecidableRel le := fun a b => inferInstanceAs (Decidable (a.bits.toNat ≤ b.bits.toNat))

end Uuid

end Rungrid
