-- SUMMARY: JSON documents and the text `encoding/json` writes for them.
import Rungrid.Base.Text
import Mathlib.Tactic.Common

/-!
# JSON documents

`Json.render` is the compact text that Go's `json.Marshal` writes for a document:
no blanks, the HTML characters and the two line separators escaped, control
characters escaped.
-/

/-- A JSON document. An object lists its members in the order they are written. -/
inductive Json where
  | null
  | bool (b : Bool)
  | int (n : Int)
  | str (s : String)
  | arr (xs : List Json)
  | obj (fields : List (String × Json))

namespace Json

/-! ## Rendering -/

/-- The four hexadecimal digits of a `\u` escape. -/
def hex4 (n : Nat) : List Char :=
  [Text.hexDigit (n / 4096 % 16), Text.hexDigit (n / 256 % 16), Text.hexDigit (n / 16 % 16),
    Text.hexDigit (n % 16)]

/-- The characters that are written as `\u` escapes: control characters without
an escape of their own, the HTML characters, and the line separators. -/
def needsHex (c : Char) : Bool :=
  c.toNat < 32 || c = '<' || c = '>' || c = '&' || c.toNat = 0x2028 || c.toNat = 0x2029

def escapeChar (c : Char) : List Char :=
  if c = '"' then ['\\', '"']
  else if c = '\\' then ['\\', '\\']
  else if c = '\n' then ['\\', 'n']
  else if c = '\r' then ['\\', 'r']
  else if c = '\t' then ['\\', 't']
  else if c.toNat = 8 then ['\\', 'b']
  else if c.toNat = 12 then ['\\', 'f']
  else if needsHex c then '\\' :: 'u' :: hex4 c.toNat
  else [c]

def escape (s : List Char) : List Char := s.flatMap escapeChar

def renderStr (s : String) : List Char := '"' :: (escape s.toList ++ ['"'])

def renderInt (n : Int) : List Char :=
  if n < 0 then '-' :: Nat.toDigits 10 n.natAbs else Nat.toDigits 10 n.natAbs

mutual
/-- The text of a document. -/
def render : Json → List Char
  | .null => ['n', 'u', 'l', 'l']
  | .bool true => ['t', 'r', 'u', 'e']
  | .bool false => ['f', 'a', 'l', 's', 'e']
  | .int n => renderInt n
  | .str s => renderStr s
  | .arr [] => ['[', ']']
  | .arr (x :: xs) => '[' :: (render x ++ renderTail xs)
  | .obj [] => ['{', '}']
  | .obj ((k, v) :: fs) => '{' :: (renderStr k ++ ':' :: (render v ++ renderFields fs))

/-- The elements after the first, with the closing bracket. -/
def renderTail : List Json → List Char
  | [] => [']']
  | x :: xs => ',' :: (render x ++ renderTail xs)

/-- The members after the first, with the closing brace. -/
def renderFields : List (String × Json) → List Char
  | [] => ['}']
  | (k, v) :: fs => ',' :: (renderStr k ++ ':' :: (render v ++ renderFields fs))
end

example : render (.obj [("a", .arr [.int (-12), .null]), ("b", .str "x<y")])
    = "\x7b\"a\":[-12,null],\"b\":\"x\\u003cy\"\x7d".toList := by decide

/-- The marshalled text of a document, as a string. -/
def marshal (j : Json) : String := String.ofList j.render

end Json
