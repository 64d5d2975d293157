-- SUMMARY: Python's `json.dumps` over texts that may hold surrogates, and what a reader of the escapes makes of them.
import Rungrid.Base.Parse
import Rungrid.Base.Utf8

/-!
# Texts of Python

A Python `str` is a sequence of code points, and surrogates are among them. `json.dumps`
writes ASCII: what is not printable is escaped as one or two UTF-16 units. The reader
joins two surrogates that follow each other, whether or not they were one code point,
and replaces a surrogate that stands alone by U+FFFD.
-/

namespace Dumps

/-- A code point of a `str`. -/
structure CodePoint where
  val : Nat
  valid : val < 0x110000
deriving DecidableEq

abbrev Str := List CodePoint

def isHigh (n : Nat) : Bool := 0xd800 ≤ n && n < 0xdc00

def isLow (n : Nat) : Bool := 0xdc00 ≤ n && n < 0xe000

/-! ## Strings -/

/-- The escape of a UTF-16 unit. -/
def unit (n : Nat) : List Char := '\\' :: 'u' :: Json.hex4 n

/-- The text of a code point. -/
def point (n : Nat) : List Char :=
  if n = 34 then ['\\', '"']
  else if n = 92 then ['\\', '\\']
  else if n = 10 then ['\\', 'n']
  else if n = 13 then ['\\', 'r']
  else if n = 9 then ['\\', 't']
  else if n = 8 then ['\\', 'b']
  else if n = 12 then ['\\', 'f']
  else if 32 ≤ n ∧ n ≤ 126 then [Char.ofNat n]
  else if n < 0x10000 then unit n
  else unit (0xd800 + (n - 0x10000) / 1024) ++ unit (0xdc00 + (n - 0x10000) % 1024)

/-- The characters of a string, without the quotes. -/
def body (s : Str) : List Char := s.flatMap (fun c => point c.val)

/-- The text of a string after its opening quote. -/
def text (s : Str) : List Char := body s ++ ['"']

/-- The character that is read for a code point of its own. -/
def single (n : Nat) : Char := if isHigh n || isLow n then Json.Read.replacement else Char.ofNat n

/-- The character that is read for two surrogates. -/
def pair (hi lo : Nat) : Char := Char.ofNat (0x10000 + (hi - 0xd800) * 0x400 + (lo - 0xdc00))

/-- The characters that are read for a string. -/
def joined : Str → List Char
  | [] => []
  | [a] => [single a.val]
  | a :: b :: s =>
      if isHigh a.val && isLow b.val then pair a.val b.val :: joined s
      else single a.val :: joined (b :: s)

/-- What follows a high surrogate is not read with it. -/
def Detached (x : List Char) : Prop :=
  ∀ r, x = '\\' :: 'u' :: r → ∃ m r', Json.Read.unit r = some (m, r') ∧ isLow m = false

/-! ## Reading a string -/

theorem point_of_surrogate {n : Nat} (h : isHigh n = true ∨ isLow n = true) : point n = unit n := by
  have hrange : 0xd800 ≤ n ∧ n < 0xe000 := by
    simp only [isHigh, isLow, Bool.and_eq_true, decide_eq_true_eq] at h
    omega
  unfold point
  rw [if_neg (by omega), if_neg (by omega), if_neg (by omega), if_neg (by omega), if_neg (by omega),
    if_neg (by omega), if_neg (by omega), if_neg (by omega), if_pos (by omega)]

theorem point_ne_nil (n : Nat) : point n ≠ [] := by
  unfold point
  split_ifs <;> simp [unit]

theorem toNat_printable {n : Nat} (h : n ≤ 126) : (Char.ofNat n).toNat = n :=
  Text.toNat_ofNat (.inl (by omega))

theorem head_point (n : Nat) (x : List Char) : (point n ++ x).head? ≠ some '"' := by
  unfold point
  split_ifs with h34
  iterate 7 simp
  · rename_i hprintable
    intro hhead
    have hc : Char.ofNat n = '"' := by simpa using hhead
    have hn := congrArg Char.toNat hc
    rw [toNat_printable hprintable.2] at hn
    exact h34 hn
  · simp [unit]
  · simp [unit]

theorem detached_quote (r : List Char) : Detached ('"' :: r) := by
  intro r' h
  cases h

theorem detached_point {n : Nat} (hn : n < 0x110000) (hlow : isLow n = false) (x : List Char) :
    Detached (point n ++ x) := by
  intro r h
  unfold point at h
  split_ifs at h with h34 h92
  iterate 7 cases h
  · rename_i hprintable
    have hc : Char.ofNat n = '\\' := by simpa using congrArg List.head? h
    have htoNat := congrArg Char.toNat hc
    rw [toNat_printable hprintable.2] at htoNat
    exact absurd htoNat h92
  · rename_i hbasic
    obtain rfl : r = Json.hex4 n ++ x := by simpa [unit, eq_comm] using h
    exact ⟨n, x, Json.Read.unit_hex4 hbasic x, hlow⟩
  · obtain rfl : r = Json.hex4 (0xd800 + (n - 0x10000) / 1024) ++
        (unit (0xdc00 + (n - 0x10000) % 1024) ++ x) := by
      simpa [unit, eq_comm] using h
    refine ⟨_, _, Json.Read.unit_hex4 (by omega) _, ?_⟩
    simp only [isLow, Bool.and_eq_false_iff, decide_eq_false_iff_not]
    omega

theorem char_unit (n : Nat) (x : List Char) :
    Json.Read.char (unit n ++ x) = Json.Read.unicode (Json.hex4 n ++ x) := rfl

/-- A unit whose successor is detached is read alone. -/
theorem unicode_single {n : Nat} (hn : n < 0x10000) {x : List Char}
    (hx : isHigh n = true → Detached x) :
    Json.Read.unicode (Json.hex4 n ++ x) = some (single n, x) := by
  unfold Json.Read.unicode
  simp only [Json.Read.unit_hex4 hn, Option.bind_eq_bind, Option.bind_some]
  by_cases hhigh : 0xd800 ≤ n ∧ n < 0xdc00
  · have hsingle : single n = Json.Read.replacement := by simp [single, isHigh, hhigh]
    rw [if_pos hhigh, hsingle]
    split
    · rename_i r
      obtain ⟨m, r', hunit, hlow⟩ := hx (by simpa [isHigh] using hhigh) r rfl
      have hlow : ¬ (0xdc00 ≤ m ∧ m < 0xe000) := by simpa [isLow] using hlow
      simp only [hunit, Option.bind_some, if_neg hlow]
      rfl
    · rfl
  · rw [if_neg hhigh]
    split
    · rename_i hlow
      have hsingle : single n = Json.Read.replacement := by simp [single, isLow, hlow]
      rw [hsingle]
      rfl
    · rename_i hlow
      have hsingle : single n = Char.ofNat n := by
        have hnot : (isHigh n || isLow n) = false := by
          simp only [isHigh, isLow, Bool.or_eq_false_iff, Bool.and_eq_false_iff,
            decide_eq_false_iff_not]
          omega
        simp [single, hnot]
      rw [hsingle]
      rfl

/-- A high and a low unit are read together. -/
theorem unicode_pair {hi lo : Nat} (hhi : isHigh hi = true) (hlo : isLow lo = true) (x : List Char) :
    Json.Read.unicode (Json.hex4 hi ++ (unit lo ++ x)) = some (pair hi lo, x) := by
  have hhi : 0xd800 ≤ hi ∧ hi < 0xdc00 := by simpa [isHigh] using hhi
  have hlo : 0xdc00 ≤ lo ∧ lo < 0xe000 := by simpa [isLow] using hlo
  unfold Json.Read.unicode
  simp only [Json.Read.unit_hex4 (show hi < 65536 by omega), Option.bind_eq_bind, Option.bind_some,
    if_pos hhi, unit, List.cons_append, Json.Read.unit_hex4 (show lo < 65536 by omega), if_pos hlo]
  rfl

theorem single_printable {n : Nat} (h : n ≤ 126) : single n = Char.ofNat n := by
  have hnot : (isHigh n || isLow n) = false := by
    simp only [isHigh, isLow, Bool.or_eq_false_iff, Bool.and_eq_false_iff, decide_eq_false_iff_not]
    omega
  simp [single, hnot]

/-- A code point whose successor is detached is read alone. -/
theorem char_point {n : Nat} (hn : n < 0x110000) {x : List Char}
    (hx : isHigh n = true → Detached x) : Json.Read.char (point n ++ x) = some (single n, x) := by
  unfold point
  split_ifs with h34 h92 h10 h13 h9 h8 h12 hprintable hbasic
  iterate 7 subst n; rfl
  · have htoNat := toNat_printable hprintable.2
    have hescape : Char.ofNat n ≠ '\\' := fun h => h92 (by rw [← htoNat, h]; rfl)
    have hcontrol : ¬ (Char.ofNat n).toNat < 32 := by omega
    rw [single_printable hprintable.2]
    simp only [List.cons_append, List.nil_append, Json.Read.char, hescape, hcontrol, ↓reduceIte]
  · rw [char_unit]
    exact unicode_single hbasic hx
  · have hhi : isHigh (0xd800 + (n - 0x10000) / 1024) = true := by
      simp only [isHigh, Bool.and_eq_true, decide_eq_true_eq]
      omega
    have hlo : isLow (0xdc00 + (n - 0x10000) % 1024) = true := by
      simp only [isLow, Bool.and_eq_true, decide_eq_true_eq]
      omega
    have hjoin : pair (0xd800 + (n - 0x10000) / 1024) (0xdc00 + (n - 0x10000) % 1024) = single n := by
      have hnot : (isHigh n || isLow n) = false := by
        simp only [isHigh, isLow, Bool.or_eq_false_iff, Bool.and_eq_false_iff, decide_eq_false_iff_not]
        omega
      rw [single, hnot, pair]
      exact congrArg Char.ofNat (by omega)
    rw [List.append_assoc, char_unit, unicode_pair hhi hlo, hjoin]

theorem char_pair {hi lo : Nat} (hhi : isHigh hi = true) (hlo : isLow lo = true) (x : List Char) :
    Json.Read.char (point hi ++ (point lo ++ x)) = some (pair hi lo, x) := by
  rw [point_of_surrogate (.inl hhi), point_of_surrogate (.inr hlo), char_unit, unicode_pair hhi hlo]

theorem chars_cons {c : Char} {t r : List Char} {cs : List Char} {n : Nat} {x : List Char}
    (hhead : t.head? ≠ some '"') (hchar : Json.Read.char t = some (c, r))
    (hrest : Json.Read.chars n r = some (cs, x)) : Json.Read.chars (n + 1) t = some (c :: cs, x) := by
  simp only [Json.Read.chars, hhead, ↓reduceIte, hchar, hrest, Option.bind_eq_bind, Option.bind_some,
    Option.pure_def]

/-- A string is read as the characters it is joined to. -/
theorem chars_body (s : Str) (x : List Char) {n : Nat} (hn : (joined s).length < n) :
    Json.Read.chars n (body s ++ '"' :: x) = some (joined s, x) := by
  induction s using joined.induct generalizing n with
  | case1 =>
      obtain ⟨m, rfl⟩ : ∃ m, n = m + 1 := ⟨n - 1, by omega⟩
      rfl
  | case2 a =>
      simp only [joined, List.length_cons, List.length_nil] at hn
      obtain ⟨m, rfl⟩ : ∃ m, n = m + 2 := ⟨n - 2, by omega⟩
      have hbody : body [a] = point a.val := by simp [body]
      rw [hbody, joined]
      exact chars_cons (head_point _ _) (char_point a.valid (fun _ => detached_quote x)) rfl
  | case3 a b s hpair ih =>
      have hjoined : joined (a :: b :: s) = pair a.val b.val :: joined s := by rw [joined, if_pos hpair]
      rw [hjoined, List.length_cons] at hn
      obtain ⟨m, rfl⟩ : ∃ m, n = m + 1 := ⟨n - 1, by omega⟩
      have hbody : body (a :: b :: s) ++ '"' :: x
          = point a.val ++ (point b.val ++ (body s ++ '"' :: x)) := by simp [body]
      obtain ⟨hhi, hlo⟩ := Bool.and_eq_true_iff.mp hpair
      rw [hbody, hjoined]
      exact chars_cons (head_point _ _) (char_pair hhi hlo _) (ih (by omega))
  | case4 a b s hpair ih =>
      have hjoined : joined (a :: b :: s) = single a.val :: joined (b :: s) := by
        rw [joined, if_neg hpair]
      rw [hjoined, List.length_cons] at hn
      obtain ⟨m, rfl⟩ : ∃ m, n = m + 1 := ⟨n - 1, by omega⟩
      have hbody : body (a :: b :: s) ++ '"' :: x = point a.val ++ (body (b :: s) ++ '"' :: x) := by
        simp [body]
      have hnext : body (b :: s) ++ '"' :: x = point b.val ++ (body s ++ '"' :: x) := by simp [body]
      have hdetached : isHigh a.val = true → Detached (body (b :: s) ++ '"' :: x) := by
        intro hhi
        rw [hnext]
        exact detached_point b.valid (by simpa [hhi] using hpair) _
      rw [hbody, hjoined]
      exact chars_cons (head_point _ _) (char_point a.valid hdetached) (ih (by omega))

theorem joined_length (s : Str) : (joined s).length ≤ (body s).length := by
  have hpoint (n : Nat) : 1 ≤ (point n).length := List.length_pos_of_ne_nil (point_ne_nil n)
  induction s using joined.induct with
  | case1 => exact Nat.le_refl 0
  | case2 a => simpa [joined, body] using hpoint a.val
  | case3 a b s hpair ih =>
      have ha := hpoint a.val
      rw [joined, if_pos hpair]
      simp only [body, List.flatMap_cons, List.length_append, List.length_cons] at ih ⊢
      omega
  | case4 a b s hpair ih =>
      have ha := hpoint a.val
      rw [joined, if_neg hpair]
      simp only [body, List.flatMap_cons, List.length_append, List.length_cons] at ih ⊢
      omega

theorem quoted_text (s : Str) : Json.Quoted (text s) (String.ofList (joined s)) := by
  intro r
  have hlen := joined_length s
  rw [text, List.append_assoc, List.singleton_append, Json.Read.text,
    chars_body s r (by simp only [List.length_append]; omega)]
  rfl

/-! ## Characters -/

theorem toNat_valid (c : Char) : c.toNat < 0xd800 ∨ 0xdfff < c.toNat ∧ c.toNat < 0x110000 := c.valid

theorem toNat_lt (c : Char) : c.toNat < 0x110000 := by
  have hvalid := toNat_valid c
  omega

/-- The code points of a text without surrogates. -/
def ofChars (cs : List Char) : Str := cs.map (fun c => ⟨c.toNat, toNat_lt c⟩)

theorem not_surrogate (c : Char) : isHigh c.toNat = false ∧ isLow c.toNat = false := by
  have hvalid := toNat_valid c
  simp only [isHigh, isLow, Bool.and_eq_false_iff, decide_eq_false_iff_not]
  omega

theorem ofChars_not_high {cs : List Char} {c : CodePoint} (h : c ∈ ofChars cs) :
    isHigh c.val = false := by
  obtain ⟨d, -, rfl⟩ := List.mem_map.mp h
  exact (not_surrogate d).1

theorem single_toNat (c : Char) : single c.toNat = c := by
  rw [single, (not_surrogate c).1, (not_surrogate c).2]
  exact Char.ofNat_toNat c

/-- A text without surrogates is read as it is. -/
theorem joined_ofChars (cs : List Char) : joined (ofChars cs) = cs := by
  induction cs with
  | nil => rfl
  | cons c cs ih =>
      cases cs with
      | nil => simp [ofChars, joined, single_toNat]
      | cons d cs =>
          have hnext : joined (ofChars (c :: d :: cs)) = single c.toNat :: joined (ofChars (d :: cs)) := by
            simp [ofChars, joined, (not_surrogate c).1]
          rw [hnext, ih, single_toNat]

/-! ## UTF-8 -/

/-- UTF-8 has no encoding of a surrogate. -/
def encodable (s : Str) : Bool := s.all (fun c => !(isHigh c.val || isLow c.val))

/-- `s.encode()`, as the text that is encoded, or none for the exception. -/
def encode (s : Str) : Option String :=
  if encodable s then some (String.ofList (s.map (fun c => Char.ofNat c.val))) else none

theorem encodable_append (s t : Str) : encodable (s ++ t) = (encodable s && encodable t) :=
  List.all_append

theorem encodable_ofChars (cs : List Char) : encodable (ofChars cs) = true := by
  refine List.all_eq_true.mpr (fun c hc => ?_)
  obtain ⟨d, -, rfl⟩ := List.mem_map.mp hc
  simp [not_surrogate d]

theorem isValidChar_of_plain {n : Nat} (hn : n < 0x110000) (h : ¬ (isHigh n || isLow n) = true) :
    n.isValidChar := by
  simp only [isHigh, isLow, Bool.or_eq_true, Bool.and_eq_true, decide_eq_true_eq] at h
  unfold Nat.isValidChar
  omega

theorem map_ofNat_ofChars (cs : List Char) : (ofChars cs).map (fun c => Char.ofNat c.val) = cs := by
  rw [ofChars, List.map_map]
  refine (List.map_congr_left fun c _ => ?_).trans (List.map_id cs)
  exact Char.ofNat_toNat c

/-- What can be encoded is a text without surrogates. -/
theorem encode_eq_some {s : Str} {t : String} : encode s = some t ↔ s = ofChars t.toList := by
  unfold encode
  constructor
  · intro h
    split at h
    · rename_i hall
      rw [← Option.some.inj h, String.toList_ofList, ofChars, List.map_map]
      refine (List.map_id s).symm.trans (List.map_congr_left fun c hc => ?_)
      have hplain := List.all_eq_true.mp hall c hc
      rw [Bool.not_eq_true', ← Bool.not_eq_true] at hplain
      have hval := Text.toNat_ofNat (isValidChar_of_plain c.valid hplain)
      simp only [id_eq, Function.comp_apply, hval]
    · cases h
  · rintro rfl
    rw [if_pos (encodable_ofChars _), map_ofNat_ofChars, String.ofList_toList]

@[simp] theorem encode_ofChars (cs : List Char) : encode (ofChars cs) = some (String.ofList cs) :=
  encode_eq_some.mpr (by rw [String.toList_ofList])

theorem encode_eq_none {s : Str} : encode s = none ↔ encodable s = false := by
  simp [encode]

theorem ofChars_append (cs ds : List Char) : ofChars (cs ++ ds) = ofChars cs ++ ofChars ds :=
  List.map_append

theorem ofChars_injective : Function.Injective ofChars := by
  intro cs ds h
  rw [← map_ofNat_ofChars cs, ← map_ofNat_ofChars ds, h]

/-- A text that is encoded after another one. -/
theorem encode_append_ofChars (cs : List Char) (s : Str) :
    encode (ofChars cs ++ s) = (encode s).map (fun t => String.ofList cs ++ t) := by
  cases hs : encode s with
  | none =>
      rw [Option.map_none, encode_eq_none, encodable_append, encode_eq_none.mp hs, Bool.and_false]
  | some t =>
      refine encode_eq_some.mpr ?_
      rw [encode_eq_some.mp hs, String.toList_append, String.toList_ofList, ofChars_append]

/-- The parts of a text are those of its characters. -/
theorem ofChars_infix {cs ds : List Char} : ofChars cs <:+: ofChars ds ↔ cs <:+: ds := by
  refine ⟨fun h => ?_, fun h => h.map _⟩
  have hmap := h.map (fun c : CodePoint => Char.ofNat c.val)
  rwa [map_ofNat_ofChars, map_ofNat_ofChars] at hmap

/-! ## U+0000 -/

theorem toNat_pair {hi lo : Nat} (hhi : isHigh hi = true) (hlo : isLow lo = true) :
    0x10000 ≤ (pair hi lo).toNat := by
  have hhi : 0xd800 ≤ hi ∧ hi < 0xdc00 := by simpa [isHigh] using hhi
  have hlo : 0xdc00 ≤ lo ∧ lo < 0xe000 := by simpa [isLow] using hlo
  have hvalid : (0x10000 + (hi - 0xd800) * 0x400 + (lo - 0xdc00)).isValidChar := by
    unfold Nat.isValidChar
    omega
  rw [pair, Text.toNat_ofNat hvalid]
  omega

theorem single_nul {n : Nat} (hn : n < 0x110000) : single n = Text.nul ↔ n = 0 := by
  unfold single
  split
  · rename_i hsurrogate
    have hne : n ≠ 0 := by
      rintro rfl
      cases hsurrogate
    exact iff_of_false (by decide) hne
  · rename_i hplain
    have hvalid := isValidChar_of_plain hn hplain
    refine ⟨fun h => ?_, fun h => by rw [h]; rfl⟩
    have htoNat := congrArg Char.toNat h
    rwa [Text.toNat_ofNat hvalid] at htoNat

/-- U+0000 is read exactly where it was written. -/
theorem nul_mem_joined (s : Str) : Text.nul ∈ joined s ↔ ∃ c ∈ s, c.val = 0 := by
  induction s using joined.induct with
  | case1 => simp [joined]
  | case2 a => simp [joined, eq_comm (a := Text.nul), single_nul a.valid]
  | case3 a b s hpair ih =>
      obtain ⟨hhi, hlo⟩ := Bool.and_eq_true_iff.mp hpair
      have hne : Text.nul ≠ pair a.val b.val := by
        intro h
        have hle := toNat_pair hhi hlo
        rw [← h] at hle
        exact absurd hle (by decide)
      have ha : a.val ≠ 0 := by
        intro h
        rw [h] at hhi
        cases hhi
      have hb : b.val ≠ 0 := by
        intro h
        rw [h] at hlo
        cases hlo
      rw [joined, if_pos hpair, List.mem_cons, ih]
      simp [hne, ha, hb]
  | case4 a b s hpair ih =>
      rw [joined, if_neg hpair, List.mem_cons, ih, eq_comm, single_nul a.valid]
      simp

/-! ## The size of what is read -/

/-- The bytes of a string in UTF-8, with two surrogates in a row taken as one code point
and any other as U+FFFD. -/
def size : Str → Nat
  | [] => 0
  | [a] => Utf8Decode.width a.val
  | a :: b :: s =>
      if isHigh a.val && isLow b.val then 4 + size s else Utf8Decode.width a.val + size (b :: s)

theorem utf8Size_single {n : Nat} (hn : n < 0x110000) :
    (single n).utf8Size = Utf8Decode.width n := by
  unfold single
  split
  · rename_i hsurrogate
    have hrange : 0xd800 ≤ n ∧ n < 0xe000 := by
      simp only [isHigh, isLow, Bool.or_eq_true, Bool.and_eq_true, decide_eq_true_eq] at hsurrogate
      omega
    have hwidth : Utf8Decode.width n = 3 := by
      unfold Utf8Decode.width
      rw [if_neg (by omega), if_neg (by omega), if_pos (by omega)]
    rw [hwidth]
    rfl
  · rename_i hplain
    have hvalid := isValidChar_of_plain hn hplain
    rw [Utf8Decode.utf8Size_eq, Text.toNat_ofNat hvalid]

theorem utf8Size_pair {hi lo : Nat} (hhi : isHigh hi = true) (hlo : isLow lo = true) :
    (pair hi lo).utf8Size = 4 := by
  have hle := toNat_pair hhi hlo
  rw [Utf8Decode.utf8Size_eq]
  unfold Utf8Decode.width
  rw [if_neg (by omega), if_neg (by omega), if_neg (by omega)]

theorem utf8ByteSize_joined (s : Str) : (String.ofList (joined s)).utf8ByteSize = size s := by
  rw [Utf8Decode.utf8ByteSize_ofList]
  induction s using joined.induct with
  | case1 => rfl
  | case2 a => simp [joined, size, utf8Size_single a.valid]
  | case3 a b s hpair ih =>
      obtain ⟨hhi, hlo⟩ := Bool.and_eq_true_iff.mp hpair
      rw [joined, if_pos hpair, size, if_pos hpair, List.map_cons, List.sum_cons, ih,
        utf8Size_pair hhi hlo]
  | case4 a b s hpair ih =>
      rw [joined, if_neg hpair, size, if_neg hpair, List.map_cons, List.sum_cons, ih,
        utf8Size_single a.valid]

/-- Without high surrogates every code point counts for itself. -/
theorem size_eq_sum {s : Str} (h : ∀ c ∈ s, isHigh c.val = false) :
    size s = (s.map (fun c => Utf8Decode.width c.val)).sum := by
  induction s using joined.induct with
  | case1 => rfl
  | case2 a => simp [size]
  | case3 a b s hpair ih => simp [h a List.mem_cons_self] at hpair
  | case4 a b s hpair ih =>
      rw [size, if_neg hpair, ih (fun c hc => h c (List.mem_cons_of_mem a hc)), List.map_cons (l := b :: s),
        List.sum_cons]

/-! ## Documents -/

/-- A value that is given to `json.dumps`. -/
inductive Doc where
  | int (n : Int)
  | str (s : Str)
  | arr (xs : List Doc)
  | obj (fields : List (Str × Doc))

mutual
/-- `json.dumps`. -/
def write : Doc → List Char
  | .int n => Json.renderInt n
  | .str s => '"' :: text s
  | .arr [] => ['[', ']']
  | .arr (x :: xs) => '[' :: (write x ++ writeTail xs)
  | .obj [] => ['{', '}']
  | .obj ((k, v) :: fs) => '{' :: '"' :: (text k ++ ':' :: ([' '] ++ (write v ++ writeFields fs)))

def writeTail : List Doc → List Char
  | [] => [']']
  | x :: xs => ',' :: ([' '] ++ (write x ++ writeTail xs))

def writeFields : List (Str × Doc) → List Char
  | [] => ['}']
  | (k, v) :: fs =>
      ',' :: ([' '] ++ '"' :: (text k ++ ':' :: ([' '] ++ (write v ++ writeFields fs))))
end

mutual
/-- The document that is read. -/
def Doc.read : Doc → Json
  | .int n => .int n
  | .str s => .str (String.ofList (joined s))
  | .arr xs => .arr (readAll xs)
  | .obj fs => .obj (readFields fs)

def readAll : List Doc → List Json
  | [] => []
  | x :: xs => x.read :: readAll xs

def readFields : List (Str × Doc) → List (String × Json)
  | [] => []
  | (k, v) :: fs => (String.ofList (joined k), v.read) :: readFields fs
end

theorem readAll_eq (xs : List Doc) : readAll xs = xs.map Doc.read := by
  induction xs with
  | nil => rfl
  | cons x xs ih => rw [readAll, ih, List.map_cons]

theorem blanks : Json.Blanks [' '] := by simp [Json.Blanks, Json.isBlank]

mutual
theorem spells_write : ∀ d, Json.Spells (write d) (.doc d.read)
  | .int n => .int n
  | .str s => .str (quoted_text s)
  | .arr [] => .emptyArr
  | .arr (x :: xs) => .arr (spells_write x) (spells_writeTail xs)
  | .obj [] => .emptyObj
  | .obj ((k, v) :: fs) => .obj (quoted_text k) blanks (spells_write v) (spells_writeFields fs)

theorem spells_writeTail : ∀ xs, Json.Spells (writeTail xs) (.tail (readAll xs))
  | [] => .lastElement
  | x :: xs => .element blanks (spells_write x) (spells_writeTail xs)

theorem spells_writeFields : ∀ fs, Json.Spells (writeFields fs) (.fields (readFields fs))
  | [] => .lastField
  | (k, v) :: fs =>
      .field blanks (quoted_text k) blanks (spells_write v) (spells_writeFields fs)
end

/-! ## Documents without surrogates -/

theorem quoted_ofChars (s : String) : Json.Quoted (text (ofChars s.toList)) s := by
  have hquoted := quoted_text (ofChars s.toList)
  rwa [joined_ofChars, String.ofList_toList] at hquoted

mutual
/-- `json.dumps` of a document whose texts have no surrogates. -/
def dump : Json → List Char
  | .null => ['n', 'u', 'l', 'l']
  | .bool true => ['t', 'r', 'u', 'e']
  | .bool false => ['f', 'a', 'l', 's', 'e']
  | .int n => Json.renderInt n
  | .str s => '"' :: text (ofChars s.toList)
  | .arr [] => ['[', ']']
  | .arr (x :: xs) => '[' :: (dump x ++ dumpTail xs)
  | .obj [] => ['{', '}']
  | .obj ((k, v) :: fs) =>
      '{' :: '"' :: (text (ofChars k.toList) ++ ':' :: ([' '] ++ (dump v ++ dumpFields fs)))

def dumpTail : List Json → List Char
  | [] => [']']
  | x :: xs => ',' :: ([' '] ++ (dump x ++ dumpTail xs))

def dumpFields : List (String × Json) → List Char
  | [] => ['}']
  | (k, v) :: fs =>
      ',' :: ([' '] ++ '"' :: (text (ofChars k.toList) ++ ':' :: ([' '] ++ (dump v ++ dumpFields fs))))
end

mutual
theorem spells_dump : ∀ d, Json.Spells (dump d) (.doc d)
  | .null => .null
  | .bool true => .true
  | .bool false => .false
  | .int n => .int n
  | .str s => .str (quoted_ofChars s)
  | .arr [] => .emptyArr
  | .arr (x :: xs) => .arr (spells_dump x) (spells_dumpTail xs)
  | .obj [] => .emptyObj
  | .obj ((k, v) :: fs) => .obj (quoted_ofChars k) blanks (spells_dump v) (spells_dumpFields fs)

theorem spells_dumpTail : ∀ xs, Json.Spells (dumpTail xs) (.tail xs)
  | [] => .lastElement
  | x :: xs => .element blanks (spells_dump x) (spells_dumpTail xs)

theorem spells_dumpFields : ∀ fs, Json.Spells (dumpFields fs) (.fields fs)
  | [] => .lastField
  | (k, v) :: fs =>
      .field blanks (quoted_ofChars k) blanks (spells_dump v) (spells_dumpFields fs)
end

/-- Reading what is written gives the document back. -/
theorem parse_dump (d : Json) : Json.parse (String.ofList (dump d)) = some d := (spells_dump d).parse_eq

end Dumps
