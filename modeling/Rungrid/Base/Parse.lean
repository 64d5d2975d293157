-- SUMMARY: A reader of JSON texts, and that it reads back what writers with different escapes and spacings write.
import Rungrid.Base.Json

/-!
# Reading JSON

A `Style` says how a writer spells a document: which characters it writes as
`\u` escapes, and how it pads commas and colons. `encoding/json` and the `jsonb`
output of PostgreSQL are two styles. `Json.parse` reads a text back, with blanks
anywhere the grammar allows them; `Style.parse_write` is the round trip, for every
style and every document. Numbers are integers here.
-/

namespace Json

/-- The blanks of the grammar. -/
def isBlank (c : Char) : Bool := c = ' ' || c = '\t' || c = '\n' || c = '\r'

/-! ## Writers -/

structure Style where
  /-- The characters without a short escape that are written as `\u` escapes. -/
  hex : Char → Bool
  /-- What follows a comma or a colon. -/
  pad : List Char
  control : ∀ c, c.toNat < 32 → hex c = true
  basic : ∀ c, hex c = true → c.toNat < 65536
  blank : ∀ c ∈ pad, isBlank c = true

namespace Style

variable (st : Style)

def char (c : Char) : List Char :=
  if c = '"' then ['\\', '"']
  else if c = '\\' then ['\\', '\\']
  else if c = '\n' then ['\\', 'n']
  else if c = '\r' then ['\\', 'r']
  else if c = '\t' then ['\\', 't']
  else if c.toNat = 8 then ['\\', 'b']
  else if c.toNat = 12 then ['\\', 'f']
  else if st.hex c then '\\' :: 'u' :: hex4 c.toNat
  else [c]

def text (s : String) : List Char := '"' :: (s.toList.flatMap st.char ++ ['"'])

mutual
def write : Json → List Char
  | .null => ['n', 'u', 'l', 'l']
  | .bool true => ['t', 'r', 'u', 'e']
  | .bool false => ['f', 'a', 'l', 's', 'e']
  | .int n => renderInt n
  | .str s => st.text s
  | .arr [] => ['[', ']']
  | .arr (x :: xs) => '[' :: (write x ++ writeTail xs)
  | .obj [] => ['{', '}']
  | .obj ((k, v) :: fs) => '{' :: (st.text k ++ ':' :: (st.pad ++ (write v ++ writeFields fs)))

def writeTail : List Json → List Char
  | [] => [']']
  | x :: xs => ',' :: (st.pad ++ (write x ++ writeTail xs))

def writeFields : List (String × Json) → List Char
  | [] => ['}']
  | (k, v) :: fs =>
      ',' :: (st.pad ++ (st.text k ++ ':' :: (st.pad ++ (write v ++ writeFields fs))))
end

theorem needsHex_control (c : Char) (h : c.toNat < 32) : needsHex c = true := by
  simp [needsHex, h]

theorem needsHex_basic (c : Char) (h : needsHex c = true) : c.toNat < 65536 := by
  simp only [needsHex, Bool.or_eq_true, decide_eq_true_eq] at h
  rcases h with ((((h | rfl) | rfl) | rfl) | h) | h
  · omega
  · decide
  · decide
  · decide
  · omega
  · omega

/-- `json.Marshal`. -/
def go : Style where
  hex := needsHex
  pad := []
  control := needsHex_control
  basic := needsHex_basic
  blank := List.forall_mem_nil _

/-- The output function of `jsonb`. -/
def jsonb : Style where
  hex c := c.toNat < 32
  pad := [' ']
  control c h := by simpa using h
  basic c h := by
    have : c.toNat < 32 := by simpa using h
    omega
  blank := by simp [isBlank]

mutual
theorem go_write : ∀ d, go.write d = render d
  | .null => rfl
  | .bool true => rfl
  | .bool false => rfl
  | .int _ => rfl
  | .str _ => rfl
  | .arr [] => rfl
  | .arr (x :: xs) => by simp only [write, render, go_write x, go_writeTail xs]
  | .obj [] => rfl
  | .obj ((k, v) :: fs) => by
      simp only [write, render, go_write v, go_writeFields fs]
      rfl

theorem go_writeTail : ∀ xs, go.writeTail xs = renderTail xs
  | [] => rfl
  | x :: xs => by
      simp only [writeTail, renderTail, go_write x, go_writeTail xs]
      rfl

theorem go_writeFields : ∀ fs, go.writeFields fs = renderFields fs
  | [] => rfl
  | (k, v) :: fs => by
      simp only [writeFields, renderFields, go_write v, go_writeFields fs]
      rfl
end

end Style

/-! ## The reader -/

namespace Read

def skip (s : List Char) : List Char := s.dropWhile isBlank

/-- The code unit of a `\u` escape. -/
def unit : List Char → Option (Nat × List Char)
  | a :: b :: c :: d :: r =>
      if Text.isHex a && Text.isHex b && Text.isHex c && Text.isHex d then
        some (Text.hexVal a * 4096 + Text.hexVal b * 256 + Text.hexVal c * 16 + Text.hexVal d, r)
      else none
  | _ => none

/-- The replacement character, which stands for a surrogate without its partner. -/
def replacement : Char := Char.ofNat 0xfffd

/-- The character of a `\u` escape. Two surrogates are one character. -/
def unicode (s : List Char) : Option (Char × List Char) := do
  let (n, r) ← unit s
  if 0xd800 ≤ n ∧ n < 0xdc00 then
    match r with
    | '\\' :: 'u' :: r' => do
        let (m, r'') ← unit r'
        if 0xdc00 ≤ m ∧ m < 0xe000 then
          return (Char.ofNat (0x10000 + (n - 0xd800) * 0x400 + (m - 0xdc00)), r'')
        else return (replacement, r)
    | _ => return (replacement, r)
  else if 0xdc00 ≤ n ∧ n < 0xe000 then return (replacement, r)
  else return (Char.ofNat n, r)

def short (c : Char) : Option Char :=
  if c = '"' ∨ c = '\\' ∨ c = '/' then some c
  else if c = 'n' then some '\n'
  else if c = 'r' then some '\r'
  else if c = 't' then some '\t'
  else if c = 'b' then some (Char.ofNat 8)
  else if c = 'f' then some (Char.ofNat 12)
  else none

/-- One character of a string. -/
def char : List Char → Option (Char × List Char)
  | [] => none
  | c :: r =>
      if c = '\\' then
        match r with
        | [] => none
        | e :: r => if e = 'u' then unicode r else (short e).map (fun c => (c, r))
      else if c.toNat < 32 then none
      else some (c, r)

/-- The characters up to the closing quote. -/
def chars : Nat → List Char → Option (List Char × List Char)
  | 0, _ => none
  | n + 1, s =>
      if s.head? = some '"' then some ([], s.tail)
      else do
        let (c, r) ← char s
        let (cs, r) ← chars n r
        return (c :: cs, r)

/-- A string, after its opening quote. -/
def text (s : List Char) : Option (String × List Char) :=
  (chars (s.length + 1) s).map (fun p => (String.ofList p.1, p.2))

/-- The digits of a number, without a sign. There is no leading zero. -/
def natural (s : List Char) : Option (Nat × List Char) :=
  let ds := s.takeWhile Char.isDigit
  if ds = [] ∨ (ds.head? = some '0' ∧ ds ≠ ['0']) then none
  else some (Nat.ofDigitChars 10 ds 0, s.dropWhile Char.isDigit)

def number (s : List Char) : Option (Json × List Char) :=
  if s.head? = some '-' then (natural s.tail).map (fun p => (.int (-p.1), p.2))
  else (natural s).map (fun p => (.int p.1, p.2))

mutual
/-- A document at the front of a text, and what follows it. The first argument
bounds the depth of the recursion. -/
def value : Nat → List Char → Option (Json × List Char)
  | 0, _ => none
  | n + 1, s =>
      match skip s with
      | 'n' :: 'u' :: 'l' :: 'l' :: r => some (.null, r)
      | 't' :: 'r' :: 'u' :: 'e' :: r => some (.bool true, r)
      | 'f' :: 'a' :: 'l' :: 's' :: 'e' :: r => some (.bool false, r)
      | '"' :: r => (text r).map (fun p => (.str p.1, p.2))
      | '[' :: r =>
          if (skip r).head? = some ']' then some (.arr [], (skip r).tail)
          else (elements n r).map (fun p => (.arr p.1, p.2))
      | '{' :: r =>
          if (skip r).head? = some '}' then some (.obj [], (skip r).tail)
          else (members n r).map (fun p => (.obj p.1, p.2))
      | s => number s

/-- The elements of an array that has some, with the closing bracket. -/
def elements : Nat → List Char → Option (List Json × List Char)
  | 0, _ => none
  | n + 1, s => do
      let (x, r) ← value n s
      match skip r with
      | ']' :: r => return ([x], r)
      | ',' :: r => do
          let (xs, r) ← elements n r
          return (x :: xs, r)
      | _ => none

/-- The members of an object that has some, with the closing brace. -/
def members : Nat → List Char → Option (List (String × Json) × List Char)
  | 0, _ => none
  | n + 1, s =>
      match skip s with
      | '"' :: r => do
          let (k, r) ← text r
          match skip r with
          | ':' :: r => do
              let (v, r) ← value n r
              match skip r with
              | '}' :: r => return ([(k, v)], r)
              | ',' :: r => do
                  let (fs, r) ← members n r
                  return ((k, v) :: fs, r)
              | _ => none
          | _ => none
      | _ => none
end

end Read

/-- The document of a text. -/
def parse (s : String) : Option Json :=
  match Read.value (s.toList.length + 1) s.toList with
  | some (d, r) => if Read.skip r = [] then some d else none
  | none => none

/-! ## Reading back -/

namespace Read

theorem skip_cons {c : Char} (h : isBlank c = false) (s : List Char) : skip (c :: s) = c :: s := by
  simp [skip, h]

theorem skip_blanks {p : List Char} (h : ∀ c ∈ p, isBlank c = true) (s : List Char) :
    skip (p ++ s) = skip s := by
  have hblanks : p.dropWhile isBlank = [] := List.dropWhile_eq_nil_iff.mpr h
  simp [skip, List.dropWhile_append, hblanks]

theorem unit_hex4 {n : Nat} (hn : n < 65536) (r : List Char) : unit (hex4 n ++ r) = some (n, r) := by
  have hhex := fun d (hd : d < 16) => Text.isHex_hexDigit d hd
  have hval := fun d (hd : d < 16) => Text.hexVal_hexDigit d hd
  simp only [hex4, List.cons_append, List.nil_append, unit, hhex _ (Nat.mod_lt _ (by decide)),
    hval _ (Nat.mod_lt _ (by decide)), Bool.and_self, ↓reduceIte, Option.some.injEq, Prod.mk.injEq,
    and_true]
  omega

theorem unicode_hex4 {c : Char} (hc : c.toNat < 65536) (r : List Char) :
    unicode (hex4 c.toNat ++ r) = some (c, r) := by
  have hvalid : c.toNat < 0xd800 ∨ 0xdfff < c.toNat := by
    rcases c.valid with h | ⟨h, -⟩
    · exact .inl h
    · exact .inr h
  have hhigh : ¬ (0xd800 ≤ c.toNat ∧ c.toNat < 0xdc00) := by omega
  have hlow : ¬ (0xdc00 ≤ c.toNat ∧ c.toNat < 0xe000) := by omega
  simp [unicode, unit_hex4 hc, hhigh, hlow, Char.ofNat_toNat]

/-- Every style's spelling of a character is read back. -/
theorem char_style (st : Style) (c : Char) (r : List Char) : char (st.char c ++ r) = some (c, r) := by
  unfold Style.char
  by_cases h1 : c = '"'
  · subst h1; rfl
  by_cases h2 : c = '\\'
  · subst h2; rfl
  by_cases h3 : c = '\n'
  · subst h3; rfl
  by_cases h4 : c = '\r'
  · subst h4; rfl
  by_cases h5 : c = '\t'
  · subst h5; rfl
  by_cases h6 : c.toNat = 8
  · have hc : c = Char.ofNat 8 := by rw [← h6, Char.ofNat_toNat]
    subst hc; rfl
  by_cases h7 : c.toNat = 12
  · have hc : c = Char.ofNat 12 := by rw [← h7, Char.ofNat_toNat]
    subst hc; rfl
  by_cases h8 : st.hex c
  · simp only [h1, h2, h3, h4, h5, h6, h7, h8, if_true, if_false, List.cons_append]
    exact unicode_hex4 (st.basic c h8) r
  · have hcontrol : ¬ c.toNat < 32 := fun h => h8 (st.control c h)
    simp only [h1, h2, h3, h4, h5, h6, h7, h8, if_false, List.cons_append, List.nil_append,
      Bool.false_eq_true, char, hcontrol]

theorem head_style (st : Style) (c : Char) (r : List Char) :
    (st.char c ++ r).head? ≠ some '"' := by
  unfold Style.char
  split_ifs <;> simp_all

theorem chars_style (st : Style) (cs r : List Char) {n : Nat} (hn : cs.length < n) :
    chars n (cs.flatMap st.char ++ '"' :: r) = some (cs, r) := by
  induction cs generalizing n with
  | nil =>
      obtain ⟨m, rfl⟩ := Nat.exists_eq_succ_of_ne_zero (by omega : n ≠ 0)
      rfl
  | cons c cs ih =>
      obtain ⟨m, rfl⟩ := Nat.exists_eq_succ_of_ne_zero (by omega : n ≠ 0)
      have hcs : cs.length < m := by simpa using hn
      rw [List.flatMap_cons, List.append_assoc]
      simp only [chars, head_style, ↓reduceIte, char_style, ih hcs, Option.bind_eq_bind,
        Option.bind_some, Option.pure_def]

theorem length_style (st : Style) (cs : List Char) : cs.length ≤ (cs.flatMap st.char).length := by
  induction cs with
  | nil => exact Nat.le_refl 0
  | cons c cs ih =>
      have hc : 1 ≤ (st.char c).length := by
        unfold Style.char
        split_ifs <;> simp
      simp only [List.flatMap_cons, List.length_append, List.length_cons]
      omega

theorem text_style (st : Style) (s : String) (r : List Char) :
    text (s.toList.flatMap st.char ++ '"' :: r) = some (s, r) := by
  have hlen := length_style st s.toList
  unfold text
  rw [chars_style st s.toList r (by simp only [List.length_append]; omega)]
  simp

/-! ## Numbers -/

/-- What may follow a document inside a larger one. -/
def Closes (x : List Char) : Prop := ∀ c ∈ x.head?, c = ',' ∨ c = ']' ∨ c = '}'

theorem Closes.not_isDigit {x : List Char} (h : Closes x) : ∀ c ∈ x.head?, c.isDigit = false := by
  intro c hc
  rcases h c hc with rfl | rfl | rfl <;> rfl

theorem span_digits {ds x : List Char} (hd : ∀ c ∈ ds, c.isDigit = true)
    (hx : ∀ c ∈ x.head?, c.isDigit = false) :
    (ds ++ x).takeWhile Char.isDigit = ds ∧ (ds ++ x).dropWhile Char.isDigit = x := by
  induction ds with
  | nil =>
      cases x with
      | nil => exact ⟨rfl, rfl⟩
      | cons c x => simp [hx c rfl]
  | cons d ds ih =>
      obtain ⟨htake, hdrop⟩ := ih (fun c hc => hd c (List.mem_cons_of_mem d hc))
      simp [hd d List.mem_cons_self, htake, hdrop]

/-- A decimal numeral starts with a zero only if it is zero. -/
theorem toDigits_head {n : Nat} (h : (Nat.toDigits 10 n).head? = some '0') : n = 0 := by
  induction n using Nat.strongRecOn with
  | ind n ih =>
      rcases Nat.lt_or_ge n 10 with hn | hn
      · have hdigit : ∀ d < 10, [Nat.digitChar d].head? = some '0' → d = 0 := by decide
        rw [Nat.toDigits_of_lt_base hn] at h
        exact hdigit n hn h
      · rw [Nat.toDigits_of_base_le (by decide) hn,
          List.head?_append_of_ne_nil _ Nat.toDigits_ne_nil] at h
        have := ih (n / 10) (by omega) h
        omega

theorem natural_digits (n : Nat) {x : List Char} (hx : Closes x) :
    natural (Nat.toDigits 10 n ++ x) = some (n, x) := by
  obtain ⟨htake, hdrop⟩ := span_digits
    (fun c hc => Nat.isDigit_of_mem_toDigits (b := 10) (n := n) (by decide) (by decide) hc) hx.not_isDigit
  have hzero : ¬ ((Nat.toDigits 10 n).head? = some '0' ∧ Nat.toDigits 10 n ≠ ['0']) := by
    rintro ⟨hhead, hne⟩
    rw [toDigits_head hhead] at hne
    exact hne rfl
  simp only [natural, htake, hdrop, Nat.toDigits_ne_nil, hzero, or_self, ↓reduceIte,
    Nat.ofDigitChars_ten_toDigits]

theorem digits_head (n : Nat) (x : List Char) :
    ∃ d r, Nat.toDigits 10 n ++ x = d :: r ∧ d.isDigit = true := by
  cases hd : Nat.toDigits 10 n with
  | nil => exact absurd hd Nat.toDigits_ne_nil
  | cons d ds =>
      have hdig : d.isDigit = true :=
        Nat.isDigit_of_mem_toDigits (b := 10) (n := n) (by decide) (by decide) (by simp [hd])
      exact ⟨d, ds ++ x, rfl, hdig⟩

theorem number_renderInt (n : Int) {x : List Char} (hx : Closes x) :
    number (renderInt n ++ x) = some (.int n, x) := by
  unfold renderInt number
  split
  · simp only [List.cons_append, List.head?_cons, ↓reduceIte, List.tail_cons, natural_digits _ hx,
      Option.map_some, Option.some.injEq, Prod.mk.injEq, Json.int.injEq, and_true]
    omega
  · obtain ⟨d, r, hhead, hdig⟩ := digits_head n.natAbs x
    have hminus : (Nat.toDigits 10 n.natAbs ++ x).head? ≠ some '-' := by
      rw [hhead]
      intro h
      cases h
      cases hdig
    simp only [hminus, ↓reduceIte, natural_digits _ hx, Option.map_some, Option.some.injEq,
      Prod.mk.injEq, Json.int.injEq, and_true]
    omega

/-! ## Documents -/

theorem closes_nil : Closes [] := by simp [Closes]

theorem value_blanks {p : List Char} (h : ∀ c ∈ p, isBlank c = true) (n : Nat) (s : List Char) :
    value n (p ++ s) = value n s := by
  cases n with
  | zero => rfl
  | succ n => simp only [value, skip_blanks h]

theorem members_blanks {p : List Char} (h : ∀ c ∈ p, isBlank c = true) (n : Nat) (s : List Char) :
    members n (p ++ s) = members n s := by
  cases n with
  | zero => rfl
  | succ n => simp only [members, skip_blanks h]

theorem elements_blanks {p : List Char} (h : ∀ c ∈ p, isBlank c = true) (n : Nat) (s : List Char) :
    elements n (p ++ s) = elements n s := by
  cases n with
  | zero => rfl
  | succ n => simp only [elements, value_blanks h]

theorem isBlank_digit {d : Char} (hd : d.isDigit = true) : isBlank d = false := by
  by_contra h
  simp only [isBlank, Bool.or_eq_true, decide_eq_true_eq, Bool.not_eq_false] at h
  rcases h with ((rfl | rfl) | rfl) | rfl <;> cases hd

/-- A numeral is none of the other documents. -/
theorem value_digit {d : Char} (hd : d.isDigit = true ∨ d = '-') (n : Nat) (r : List Char) :
    value (n + 1) (d :: r) = number (d :: r) := by
  have hblank : isBlank d = false := by
    rcases hd with hd | rfl
    · exact isBlank_digit hd
    · rfl
  have hne : ∀ c, c = d → ¬ (c.isDigit = false ∧ c ≠ '-') := by
    rintro c rfl ⟨hdig, hminus⟩
    rcases hd with hd | rfl
    · rw [hdig] at hd
      cases hd
    · exact hminus rfl
  simp only [value, skip_cons hblank]
  split
  iterate 6
    · rename_i heq
      rw [List.cons.injEq] at heq
      exact absurd ⟨rfl, by decide⟩ (hne _ heq.1.symm)
  · rfl

theorem value_renderInt (k : Int) (n : Nat) {x : List Char} (hx : Closes x) :
    value (n + 1) (renderInt k ++ x) = some (.int k, x) := by
  rw [← number_renderInt k hx]
  unfold renderInt
  split
  · exact value_digit (.inr rfl) n _
  · obtain ⟨d, r, hhead, hdig⟩ := digits_head k.natAbs x
    rw [hhead]
    exact value_digit (.inl hdig) n r

theorem renderInt_open (k : Int) (x : List Char) :
    renderInt k ≠ [] ∧ (skip (renderInt k ++ x)).head? ≠ some ']' := by
  unfold renderInt
  split
  · simp [skip, isBlank]
  · obtain ⟨d, r, hhead, hdig⟩ := digits_head k.natAbs x
    refine ⟨Nat.toDigits_ne_nil, ?_⟩
    rw [hhead, skip_cons (isBlank_digit hdig)]
    intro h
    cases h
    cases hdig

end Read

/-! ## Spellings

A spelling is a text that the reader accepts for a document. Writers differ in how they
spell strings and where they put blanks; that their texts are read back is one
induction, on the spelling. -/

/-- A document, or what follows an element of an array or a member of an object. -/
inductive Part where
  | doc (d : Json)
  | tail (xs : List Json)
  | fields (fs : List (String × Json))

/-- The text, which follows an opening quote, is read as the string. -/
def Quoted (t : List Char) (s : String) : Prop := ∀ r, Read.text (t ++ r) = some (s, r)

def Blanks (p : List Char) : Prop := ∀ c ∈ p, isBlank c = true

inductive Spells : List Char → Part → Prop where
  | null : Spells ['n', 'u', 'l', 'l'] (.doc .null)
  | true : Spells ['t', 'r', 'u', 'e'] (.doc (.bool .true))
  | false : Spells ['f', 'a', 'l', 's', 'e'] (.doc (.bool .false))
  | int (n : Int) : Spells (renderInt n) (.doc (.int n))
  | str {t : List Char} {s : String} : Quoted t s → Spells ('"' :: t) (.doc (.str s))
  | emptyArr : Spells ['[', ']'] (.doc (.arr []))
  | arr {t u : List Char} {x : Json} {xs : List Json} : Spells t (.doc x) → Spells u (.tail xs) →
      Spells ('[' :: (t ++ u)) (.doc (.arr (x :: xs)))
  | lastElement : Spells [']'] (.tail [])
  | element {p t u : List Char} {x : Json} {xs : List Json} : Blanks p → Spells t (.doc x) →
      Spells u (.tail xs) → Spells (',' :: (p ++ (t ++ u))) (.tail (x :: xs))
  | emptyObj : Spells ['{', '}'] (.doc (.obj []))
  | obj {k p t u : List Char} {name : String} {v : Json} {fs : List (String × Json)} :
      Quoted k name → Blanks p → Spells t (.doc v) → Spells u (.fields fs) →
      Spells ('{' :: '"' :: (k ++ ':' :: (p ++ (t ++ u)))) (.doc (.obj ((name, v) :: fs)))
  | lastField : Spells ['}'] (.fields [])
  | field {p k q t u : List Char} {name : String} {v : Json} {fs : List (String × Json)} :
      Blanks p → Quoted k name → Blanks q → Spells t (.doc v) → Spells u (.fields fs) →
      Spells (',' :: (p ++ '"' :: (k ++ ':' :: (q ++ (t ++ u))))) (.fields ((name, v) :: fs))

open Read

/-- The text is read as the document, and does not look like the end of an array. -/
structure ReadsDoc (d : Json) (t : List Char) : Prop where
  nonempty : t ≠ []
  opens : ∀ x, (skip (t ++ x)).head? ≠ some ']'
  whole : ∀ x n, t.length ≤ n → Closes x → value n (t ++ x) = some (d, x)

/-- What the reader does with a text of each part. -/
def Part.Reads : Part → List Char → Prop
  | .doc d, t => ReadsDoc d t
  | .tail xs, u => ∀ y t n x, ReadsDoc y t → t.length + u.length ≤ n →
      elements n (t ++ (u ++ x)) = some (y :: xs, x)
  | .fields fs, u => ∀ k name p v t n x, Quoted k name → Blanks p → ReadsDoc v t →
      k.length + p.length + t.length + u.length < n →
      members n ('"' :: (k ++ ':' :: (p ++ (t ++ (u ++ x))))) = some ((name, v) :: fs, x)

theorem ReadsDoc.of_cons {d : Json} {c : Char} {t : List Char} (hblank : isBlank c = false)
    (hclose : c ≠ ']')
    (h : ∀ x n, t.length ≤ n → Closes x → value (n + 1) (c :: (t ++ x)) = some (d, x)) :
    ReadsDoc d (c :: t) := by
  refine ⟨List.cons_ne_nil c t, fun x => ?_, fun x n hn hx => ?_⟩
  · rw [List.cons_append, skip_cons hblank]
    simpa using hclose
  · obtain ⟨m, rfl⟩ : ∃ m, n = m + 1 := ⟨n - 1, by simp only [List.length_cons] at hn; omega⟩
    exact h x m (by simpa using hn) hx

/-- A spelling is read as what it spells, whatever follows. -/
theorem Spells.reads {t : List Char} {p : Part} (h : Spells t p) : p.Reads t := by
  induction h with
  | null => exact ReadsDoc.of_cons rfl (by decide) (fun _ _ _ _ => rfl)
  | true => exact ReadsDoc.of_cons rfl (by decide) (fun _ _ _ _ => rfl)
  | false => exact ReadsDoc.of_cons rfl (by decide) (fun _ _ _ _ => rfl)
  | int k =>
      refine ⟨(renderInt_open k []).1, fun x => (renderInt_open k x).2, fun x n hn hx => ?_⟩
      have hpos := List.length_pos_of_ne_nil (renderInt_open k []).1
      obtain ⟨m, rfl⟩ : ∃ m, n = m + 1 := ⟨n - 1, by omega⟩
      exact value_renderInt k m hx
  | str hs =>
      refine ReadsDoc.of_cons rfl (by decide) (fun x n _ _ => ?_)
      simp only [value, skip_cons (c := '"') rfl, hs x, Option.map_some]
  | emptyArr => exact ReadsDoc.of_cons rfl (by decide) (fun _ _ _ _ => rfl)
  | @arr t u y ys _ _ hdoc htail =>
      refine ReadsDoc.of_cons rfl (by decide) (fun x n hn _ => ?_)
      have hopen := hdoc.opens (u ++ x)
      have hrest := htail y t n x hdoc (by simpa using hn)
      rw [List.append_assoc]
      simp only [value, skip_cons (c := '[') rfl, hopen, ↓reduceIte, hrest, Option.map_some]
  | lastElement =>
      intro y t n x hy hn
      obtain ⟨m, rfl⟩ : ∃ m, n = m + 1 := ⟨n - 1, by simp only [List.length_cons] at hn; omega⟩
      have hread := hy.whole ([']'] ++ x) m (by simpa using hn) (by simp [Closes])
      simp only [elements, hread, Option.bind_eq_bind, Option.bind_some]
      rfl
  | @element p t u y ys hp _ _ hdoc htail =>
      intro z s n x hz hn
      simp only [List.length_cons, List.length_append] at hn
      obtain ⟨m, rfl⟩ : ∃ m, n = m + 1 := ⟨n - 1, by omega⟩
      have hread := hz.whole (',' :: (p ++ (t ++ u)) ++ x) m (by omega) (by simp [Closes])
      have hrest := htail y t m x hdoc (by omega)
      simp only [elements, hread, Option.bind_eq_bind, Option.bind_some]
      simp only [List.cons_append, List.append_assoc, skip_cons (c := ',') rfl, elements_blanks hp,
        hrest, Option.bind_some, Option.pure_def]
  | emptyObj => exact ReadsDoc.of_cons rfl (by decide) (fun _ _ _ _ => rfl)
  | @obj k p t u name v fs hk hp _ _ hdoc hfields =>
      refine ReadsDoc.of_cons rfl (by decide) (fun x n hn _ => ?_)
      simp only [List.length_cons, List.length_append] at hn
      have hrest := hfields k name p v t n x hk hp hdoc (by omega)
      simp only [List.cons_append, List.append_assoc, value, skip_cons (c := '{') rfl,
        skip_cons (c := '"') rfl, hrest, Option.map_some]
      rfl
  | lastField =>
      intro k name p v t n x hk hp hv hn
      obtain ⟨m, rfl⟩ : ∃ m, n = m + 1 := ⟨n - 1, by omega⟩
      have hread := hv.whole (['}'] ++ x) m (by omega) (by simp [Closes])
      simp only [members, skip_cons (c := '"') rfl, skip_cons (c := ':') rfl, hk _, value_blanks hp,
        hread, Option.bind_eq_bind, Option.bind_some]
      rfl
  | @field p k q t u name v fs hp hk hq _ _ hdoc hfields =>
      intro k' name' p' v' t' n x hk' hp' hv' hn
      simp only [List.length_cons, List.length_append] at hn
      obtain ⟨m, rfl⟩ : ∃ m, n = m + 1 := ⟨n - 1, by omega⟩
      have hread := hv'.whole (',' :: (p ++ '"' :: (k ++ ':' :: (q ++ (t ++ u)))) ++ x) m (by omega)
        (by simp [Closes])
      have hrest := hfields k name q v t m x hk hq hdoc (by omega)
      simp only [members, skip_cons (c := '"') rfl, skip_cons (c := ':') rfl, hk' _, value_blanks hp',
        hread, Option.bind_eq_bind, Option.bind_some]
      simp only [List.cons_append, List.append_assoc, skip_cons (c := ',') rfl, members_blanks hp,
        hrest, Option.bind_some, Option.pure_def]

/-- A spelling with nothing after it. -/
theorem Spells.value_eq {t : List Char} {d : Json} (h : Spells t (.doc d)) :
    value (t.length + 1) t = some (d, []) := by
  have hread := h.reads.whole [] (t.length + 1) (by omega) closes_nil
  rwa [List.append_nil] at hread

theorem Spells.parse_eq {t : List Char} {d : Json} (h : Spells t (.doc d)) :
    parse (String.ofList t) = some d := by
  simp only [parse, String.toList_ofList, h.value_eq]
  rfl

/-! ## The texts of the styles -/

namespace Style

variable (st : Style)

theorem quoted (s : String) : Quoted (s.toList.flatMap st.char ++ ['"']) s := by
  intro r
  rw [List.append_assoc]
  exact text_style st s r

mutual
theorem spells_write : ∀ d, Spells (st.write d) (.doc d)
  | .null => .null
  | .bool true => .true
  | .bool false => .false
  | .int n => .int n
  | .str s => .str (st.quoted s)
  | .arr [] => .emptyArr
  | .arr (x :: xs) => .arr (spells_write x) (spells_writeTail xs)
  | .obj [] => .emptyObj
  | .obj ((k, v) :: fs) => .obj (st.quoted k) st.blank (spells_write v) (spells_writeFields fs)

theorem spells_writeTail : ∀ xs, Spells (st.writeTail xs) (.tail xs)
  | [] => .lastElement
  | x :: xs => .element st.blank (spells_write x) (spells_writeTail xs)

theorem spells_writeFields : ∀ fs, Spells (st.writeFields fs) (.fields fs)
  | [] => .lastField
  | (k, v) :: fs =>
      .field st.blank (st.quoted k) st.blank (spells_write v) (spells_writeFields fs)
end

/-- Reading what a style writes gives the document back. -/
theorem parse_write (d : Json) : parse (String.ofList (st.write d)) = some d :=
  (st.spells_write d).parse_eq

end Style

theorem parse_marshal (d : Json) : parse d.marshal = some d := by
  rw [marshal, ← Style.go_write]
  exact Style.go.parse_write d

/-- The marshalled text determines the document, so that comparing texts, or digests of
them, stands for comparing the values. -/
theorem marshal_injective : Function.Injective marshal := by
  intro d e h
  have hparse := parse_marshal d
  rw [h, parse_marshal] at hparse
  exact (Option.some.inj hparse).symm

end Json
