import Plugboard.Digit

/-!
# Character references

In an attribute value five characters are written as references. Reading also
accepts references by decimal or hexadecimal code. Between an ampersand and the
next semicolon there may be no second ampersand.
-/

namespace Plugboard.Markup

/-- The written form of one character of a value. -/
def escapeChar : Char → List Char
  | '<' => "&lt;".toList
  | '>' => "&gt;".toList
  | '&' => "&amp;".toList
  | '\'' => "&apos;".toList
  | '"' => "&quot;".toList
  | c => [c]

def escape (value : List Char) : List Char := value.flatMap escapeChar

/-- The character with a given code, other than the one with code zero. -/
def charOfCode? (code : Nat) : Option Char :=
  if code ≠ 0 ∧ code.isValidChar then some (Char.ofNat code) else none

/-- What the text between an ampersand and its semicolon stands for. -/
def reference? (body : List Char) : Option Char :=
  match body with
  | '#' :: 'x' :: digits =>
      if digits.length ≤ 6 then (number? 16 digits).bind charOfCode? else none
  | '#' :: digits =>
      if digits.length ≤ 7 then (number? 10 digits).bind charOfCode? else none
  | _ =>
      if body = "lt".toList then some '<'
      else if body = "gt".toList then some '>'
      else if body = "amp".toList then some '&'
      else if body = "apos".toList then some '\''
      else if body = "quot".toList then some '"'
      else none

/-- Reads a value. While a reference is open, `body` holds what has been read of
it, backwards. -/
def unescapeFrom : Option (List Char) → List Char → Option (List Char)
  | none, [] => some []
  | none, c :: cs =>
      if c = '&' then unescapeFrom (some []) cs else (unescapeFrom none cs).map (c :: ·)
  | some _, [] => none
  | some body, c :: cs =>
      if c = '&' then none
      else if c = ';' then do
        let d ← reference? body.reverse
        (unescapeFrom none cs).map (d :: ·)
      else unescapeFrom (some (c :: body)) cs

def unescape (written : List Char) : Option (List Char) := unescapeFrom none written

end Plugboard.Markup
