-- SUMMARY: Decoding of UTF-8 with replacement of invalid sequences, as a machine over bytes.
import Mathlib.Tactic.NormNum
import Rungrid.Base.Text

/-!
# UTF-8 with replacement

`bytes.decode(errors="replace")` reads one byte at a time. Between bytes it stands at
the start of a character or within one, where the next byte has to lie in a range that
excludes overlong forms, surrogates and values above U+10FFFF. A byte outside the range
ends the character with U+FFFD and is read again at the start.
-/

namespace Utf8Decode

/-- U+FFFD. -/
def replacement : Char := Char.ofNat 0xFFFD

/-- Where the decoder stands: at the start of a character, or with `left` bytes to come
after the next one, which has to lie between `lo` and `hi`. -/
inductive State where
  | start
  | within (left lo hi code : Nat)

/-- The first byte of a character: what it emits, and the state after it. -/
def first (b : Nat) : List Char × State :=
  if b < 0x80 then ([Char.ofNat b], .start)
  else if b < 0xC2 then ([replacement], .start)
  else if b < 0xE0 then ([], .within 0 0x80 0xBF (b - 0xC0))
  else if b = 0xE0 then ([], .within 1 0xA0 0xBF 0)
  else if b = 0xED then ([], .within 1 0x80 0x9F 0xD)
  else if b < 0xF0 then ([], .within 1 0x80 0xBF (b - 0xE0))
  else if b = 0xF0 then ([], .within 2 0x90 0xBF 0)
  else if b < 0xF4 then ([], .within 2 0x80 0xBF (b - 0xF0))
  else if b = 0xF4 then ([], .within 2 0x80 0x8F 4)
  else ([replacement], .start)

/-- One byte. -/
def next : State → Nat → List Char × State
  | .start, b => first b
  | .within left lo hi code, b =>
      if lo ≤ b ∧ b ≤ hi then
        match left with
        | 0 => ([Char.ofNat (code * 64 + b % 64)], .start)
        | left + 1 => ([], .within left 0x80 0xBF (code * 64 + b % 64))
      else (replacement :: (first b).1, (first b).2)

/-- The characters of the bytes that follow a state. -/
def decodeFrom : State → List UInt8 → List Char
  | .start, [] => []
  | .within _ _ _ _, [] => [replacement]
  | s, b :: bytes => (next s b.toNat).1 ++ decodeFrom (next s b.toNat).2 bytes

/-- `bytes.decode(errors="replace")`. -/
def decode (bytes : List UInt8) : List Char := decodeFrom .start bytes

example : decode [0x61, 0xC3, 0xA9, 0xE2, 0x82, 0x62] = ['a', 'é', replacement, 'b'] := by decide
example : decode [0xED, 0xA0, 0x80, 0xFF] = List.replicate 4 replacement := by decide

theorem decodeFrom_cons (s : State) (b : UInt8) (bytes : List UInt8) :
    decodeFrom s (b :: bytes) = (next s b.toNat).1 ++ decodeFrom (next s b.toNat).2 bytes := by
  cases s <;> rfl

/-- Bytes below 128 are characters of their own. -/
theorem decode_ascii {bytes : List UInt8} (h : ∀ b ∈ bytes, b.toNat < 0x80) :
    decode bytes = bytes.map (fun b => Char.ofNat b.toNat) := by
  induction bytes with
  | nil => rfl
  | cons b bytes ih =>
      have hb : first b.toNat = ([Char.ofNat b.toNat], .start) := if_pos (h b List.mem_cons_self)
      rw [decode, decodeFrom_cons, next, hb, List.map_cons, ← ih (fun x hx => h x (List.mem_cons_of_mem _ hx))]
      rfl

/-! ## How much the decoder expands -/

section Weight

variable {weight : Char → Nat} {k : Nat}

/-- A character within reach of its bytes. -/
def State.credit (k : Nat) : State → Nat
  | .start => 0
  | .within _ _ _ _ => k

theorem first_weight (hsmall : ∀ c : Char, c.toNat < 0x10000 → weight c ≤ k) (b : Nat) :
    ((first b).1.map weight).sum + (first b).2.credit k ≤ k := by
  have hrep : weight replacement ≤ k := hsmall replacement (by decide)
  unfold first
  split
  · rename_i hb
    have hchar : ∀ b < 0x80, (Char.ofNat b).toNat < 0x10000 := by decide
    simpa [State.credit] using hsmall (Char.ofNat b) (hchar b hb)
  · split_ifs <;> simp [State.credit, hrep]

/-- A step emits at most what its byte and the bytes before it are worth. -/
theorem next_weight (hsmall : ∀ c : Char, c.toNat < 0x10000 → weight c ≤ k)
    (hall : ∀ c, weight c ≤ 2 * k) (s : State) (b : Nat) :
    ((next s b).1.map weight).sum + (next s b).2.credit k ≤ s.credit k + k := by
  have hfirst := first_weight hsmall b
  have hrep : weight replacement ≤ k := hsmall replacement (by decide)
  cases s with
  | start => simpa [next, State.credit] using hfirst
  | within left lo hi code =>
      by_cases hrange : lo ≤ b ∧ b ≤ hi
      · cases left with
        | zero =>
            have hchar := hall (Char.ofNat (code * 64 + b % 64))
            simp only [next, if_pos hrange, List.map_cons, List.map_nil, List.sum_cons, List.sum_nil,
              State.credit]
            omega
        | succ left => simp [next, if_pos hrange, State.credit]
      · have hnext : next (.within left lo hi code) b = (replacement :: (first b).1, (first b).2) :=
          if_neg hrange
        simp only [hnext, List.map_cons, List.sum_cons]
        have hcredit : (State.within left lo hi code).credit k = k := rfl
        omega

theorem decodeFrom_weight (hsmall : ∀ c : Char, c.toNat < 0x10000 → weight c ≤ k)
    (hall : ∀ c, weight c ≤ 2 * k) (s : State) (bytes : List UInt8) :
    ((decodeFrom s bytes).map weight).sum ≤ s.credit k + k * bytes.length := by
  induction bytes generalizing s with
  | nil =>
      cases s with
      | start => simp [decodeFrom]
      | within left lo hi code => simpa [decodeFrom, State.credit] using hsmall replacement (by decide)
  | cons b bytes ih =>
      have hstep := next_weight hsmall hall s b.toNat
      have hrest := ih (next s b.toNat).2
      rw [decodeFrom_cons, List.map_append, List.sum_append, List.length_cons, Nat.mul_succ]
      omega

/-- If a character of the basic plane weighs at most `k` and any other at most `2 * k`,
the text weighs at most `k` for each byte. -/
theorem decode_weight (hsmall : ∀ c : Char, c.toNat < 0x10000 → weight c ≤ k)
    (hall : ∀ c, weight c ≤ 2 * k) (bytes : List UInt8) :
    ((decode bytes).map weight).sum ≤ k * bytes.length := by
  simpa [decode, State.credit] using decodeFrom_weight hsmall hall .start bytes

end Weight

/-! ## The size of the decoded text -/

/-- The bytes of a code point. -/
def width (n : Nat) : Nat :=
  if n < 0x80 then 1 else if n < 0x800 then 2 else if n < 0x10000 then 3 else 4

theorem utf8Size_eq (c : Char) : c.utf8Size = width c.toNat := by
  simp only [Char.utf8Size, width, Char.toNat, UInt32.le_iff_toNat_le, UInt32.toNat_ofNatLT,
    Nat.lt_succ_iff]

theorem utf8ByteSize_ofList (cs : List Char) :
    (String.ofList cs).utf8ByteSize = (cs.map Char.utf8Size).sum := by
  induction cs with
  | nil => rfl
  | cons c cs ih =>
      rw [String.ofList_cons, String.utf8ByteSize_append, String.utf8ByteSize_singleton, ih,
        List.map_cons, List.sum_cons]

/-- The decoder makes at most three bytes of one. -/
theorem decode_size (bytes : List UInt8) :
    ((decode bytes).map Char.utf8Size).sum ≤ 3 * bytes.length := by
  refine decode_weight (fun c hc => ?_) (fun c => ?_) bytes
  · rw [utf8Size_eq, width]
    split_ifs <;> omega
  · rw [utf8Size_eq, width]
    split_ifs <;> omega

/-! ## Zero bytes -/

/-- What a sequence that is completed from here on encodes is a character other than
U+0000. -/
def State.Sound : State → Prop
  | .start => True
  | .within left lo hi code => completes left lo hi code
where
  completes : Nat → Nat → Nat → Nat → Prop
  | 0, lo, hi, code => 0x80 ≤ lo ∧ ∀ b, lo ≤ b → b ≤ hi →
      0 < code * 64 + b % 64 ∧ (code * 64 + b % 64).isValidChar
  | left + 1, lo, hi, code => 0x80 ≤ lo ∧ ∀ b, lo ≤ b → b ≤ hi →
      completes left 0x80 0xBF (code * 64 + b % 64)

/-- The first byte and the range of the second leave out overlong forms, surrogates and
what is too large. -/
theorem first_sound (b : Nat) : (first b).2.Sound := by
  have two : ∀ code, 2 ≤ code → code < 32 → State.Sound (.within 0 0x80 0xBF code) :=
    fun code _ _ => ⟨le_refl _, fun b₁ _ _ => by unfold Nat.isValidChar; omega⟩
  have three : ∀ lo hi code, 0x80 ≤ lo → hi ≤ 0xBF → 32 ≤ code * 64 + (lo - 0x80) → code < 16 →
      code * 64 + (hi - 0x80) < 864 ∨ 14 ≤ code → State.Sound (.within 1 lo hi code) :=
    fun lo hi code _ _ _ _ _ => ⟨by omega, fun b₁ _ _ => ⟨le_refl _, fun b₂ _ _ => by
      unfold Nat.isValidChar; omega⟩⟩
  have four : ∀ lo hi code, 0x80 ≤ lo → hi ≤ 0xBF → 16 ≤ code * 64 + (lo - 0x80) →
      code * 64 + (hi - 0x80) < 272 → State.Sound (.within 2 lo hi code) :=
    fun lo hi code _ _ _ _ => ⟨by omega, fun b₁ _ _ => ⟨le_refl _, fun b₂ _ _ => ⟨le_refl _, fun b₃ _ _ => by
      unfold Nat.isValidChar; omega⟩⟩⟩
  unfold first
  split_ifs
  · exact trivial
  · exact trivial
  · exact two _ (by omega) (by omega)
  · exact three _ _ _ (by omega) (by omega) (by omega) (by omega) (by omega)
  · exact three _ _ _ (by omega) (by omega) (by omega) (by omega) (by omega)
  · exact three _ _ _ (by omega) (by omega) (by omega) (by omega) (by omega)
  · exact four _ _ _ (by omega) (by omega) (by omega) (by omega)
  · exact four _ _ _ (by omega) (by omega) (by omega) (by omega)
  · exact four _ _ _ (by omega) (by omega) (by omega) (by omega)
  · exact trivial

theorem next_sound {s : State} (hs : s.Sound) (b : Nat) : (next s b).2.Sound := by
  cases s with
  | start => exact first_sound b
  | within left lo hi code =>
      by_cases hrange : lo ≤ b ∧ b ≤ hi
      · cases left with
        | zero =>
            rw [next, if_pos hrange]
            exact trivial
        | succ left =>
            rw [next, if_pos hrange]
            exact hs.2 b hrange.1 hrange.2
      · have hnext : next (.within left lo hi code) b = (replacement :: (first b).1, (first b).2) :=
          if_neg hrange
        rw [hnext]
        exact first_sound b

theorem nul_mem_first (b : Nat) : Text.nul ∈ (first b).1 ↔ b = 0 := by
  have hascii : ∀ b < 0x80, Text.nul = Char.ofNat b ↔ b = 0 := by decide
  have hreplacement : Text.nul ≠ replacement := by decide
  unfold first
  split_ifs
  · rename_i hb
    rw [List.mem_singleton, hascii b hb]
  all_goals simp only [List.mem_singleton, hreplacement, List.not_mem_nil, false_iff]
  all_goals omega

theorem nul_mem_next {s : State} (hs : s.Sound) (b : Nat) : Text.nul ∈ (next s b).1 ↔ b = 0 := by
  cases s with
  | start => exact nul_mem_first b
  | within left lo hi code =>
      by_cases hrange : lo ≤ b ∧ b ≤ hi
      · cases left with
        | zero =>
            obtain ⟨hlo, hcompletes⟩ := hs
            obtain ⟨hpos, hvalid⟩ := hcompletes b hrange.1 hrange.2
            have hne : Text.nul ≠ Char.ofNat (code * 64 + b % 64) := by
              intro h
              have hnat := congrArg Char.toNat h
              rw [Text.toNat_ofNat hvalid] at hnat
              exact absurd hnat.symm (Nat.ne_of_gt hpos)
            rw [next, if_pos hrange, List.mem_singleton]
            exact iff_of_false hne (by omega)
        | succ left =>
            have hlo := hs.1
            rw [next, if_pos hrange]
            exact iff_of_false List.not_mem_nil (by omega)
      · have hnext : next (.within left lo hi code) b = (replacement :: (first b).1, (first b).2) :=
          if_neg hrange
        rw [hnext, List.mem_cons, nul_mem_first]
        exact or_iff_right (by decide)

theorem nul_mem_decodeFrom {s : State} (hs : s.Sound) (bytes : List UInt8) :
    Text.nul ∈ decodeFrom s bytes ↔ 0 ∈ bytes := by
  induction bytes generalizing s with
  | nil =>
      cases s with
      | start => exact iff_of_false List.not_mem_nil List.not_mem_nil
      | within left lo hi code =>
          have hne : Text.nul ∉ [replacement] := by decide
          exact iff_of_false hne List.not_mem_nil
  | cons b bytes ih =>
      have hb : b.toNat = 0 ↔ 0 = b := by
        rw [eq_comm, ← UInt8.toNat_inj]
        rfl
      rw [decodeFrom_cons, List.mem_append, nul_mem_next hs, ih (next_sound hs _), hb, List.mem_cons]

/-- No byte but zero becomes U+0000, and every zero byte does. -/
theorem nul_mem_decode (bytes : List UInt8) : Text.nul ∈ decode bytes ↔ 0 ∈ bytes :=
  nul_mem_decodeFrom (s := .start) trivial bytes

end Utf8Decode
