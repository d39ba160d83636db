import Plugboard.Digit
import Plugboard.Toml.Value

/-!
# Numbers, dates and truth values

An unquoted value is read off as a whole and then classified. Underscores may
stand between digits. Decimal integers have no leading zeros and all integers fit
64 bits. A float must not round to positive infinity. Dates have to exist.
-/

namespace Plugboard.Toml

def isDecimal (c : Char) : Bool := c.isDigit

/-- The digits in a nonempty text of digits with single underscores between them. -/
def digits? (base : Nat) : List Char → Option (List Nat)
  | [] => none
  | [c] => (digit? base c).map fun d => [d]
  | c :: '_' :: cs => do
      let d ← digit? base c
      let ds ← digits? base cs
      return d :: ds
  | c :: cs => do
      let d ← digit? base c
      let ds ← digits? base cs
      return d :: ds

/-- Splits off a sign. -/
def splitSign : List Char → Bool × List Char
  | '-' :: cs => (true, cs)
  | '+' :: cs => (false, cs)
  | cs => (false, cs)

/-- Decimal digits without a leading zero. -/
def plainDigits? (cs : List Char) : Option (List Nat) :=
  (digits? 10 cs).filter fun ds => ds.length == 1 || ds.head? != some 0

def inRange (n : Int) : Bool := -9223372036854775808 ≤ n && n ≤ 9223372036854775807

def integer? (cs : List Char) : Option Int :=
  let value? : Option Int := match cs with
    | '0' :: 'x' :: cs => (digits? 16 cs).map fun ds => Int.ofNat (ofDigits 16 ds)
    | '0' :: 'o' :: cs => (digits? 8 cs).map fun ds => Int.ofNat (ofDigits 8 ds)
    | '0' :: 'b' :: cs => (digits? 2 cs).map fun ds => Int.ofNat (ofDigits 2 ds)
    | cs =>
        let (negative, cs) := splitSign cs
        (plainDigits? cs).map fun ds =>
          let n := Int.ofNat (ofDigits 10 ds)
          if negative then -n else n
  value?.filter inRange

/-- Whether `mantissa * 10 ^ exponent` rounds to infinity as a double. The bound
lies halfway between the greatest double and the next power of two. -/
def overflows (mantissa : Nat) (exponent : Int) : Bool :=
  let bound := Nat.pow 2 1024 - Nat.pow 2 970
  let scale := exponent + (Nat.toDigits 10 mantissa).length
  if mantissa = 0 ∨ scale < 0 then false
  else if 400 < scale then true
  else if 0 ≤ exponent then bound ≤ mantissa * Nat.pow 10 exponent.toNat
  else bound * Nat.pow 10 (-exponent).toNat ≤ mantissa

/-- The digits after a decimal point; none without one. -/
def fraction? : List Char → Option (List Nat)
  | [] => some []
  | '.' :: cs => digits? 10 cs
  | _ => none

/-- The exponent after its letter; zero without one. -/
def exponent? : List Char → Option Int
  | [] => some 0
  | c :: cs =>
      if c = 'e' ∨ c = 'E' then
        let (negative, cs) := splitSign cs
        (digits? 10 cs).map fun ds =>
          let n := Int.ofNat (ofDigits 10 ds)
          if negative then -n else n
      else none

def isExponentMark (c : Char) : Bool := c == 'e' || c == 'E'

/-- Whether a text is a float: digits with a fraction, an exponent or both, or one
of the two special values. -/
def isFloat (cs : List Char) : Bool :=
  let (negative, body) := splitSign cs
  if body = "inf".toList ∨ body = "nan".toList then true
  else
    let significand := body.takeWhile (! isExponentMark ·)
    let exponent := body.dropWhile (! isExponentMark ·)
    let whole := significand.takeWhile (· != '.')
    let fraction := significand.dropWhile (· != '.')
    if fraction.isEmpty && exponent.isEmpty then false
    else
      match plainDigits? whole, fraction? fraction, exponent? exponent with
      | some ws, some fs, some e =>
          negative || ! overflows (ofDigits 10 (ws ++ fs)) (e - fs.length)
      | _, _, _ => false

/-- A number of exactly `count` digits between two bounds, and the rest. -/
def field? (count low high : Nat) (cs : List Char) : Option (Nat × List Char) := do
  let ds ← (cs.take count).mapM (digit? 10)
  let n := ofDigits 10 ds
  if ds.length = count ∧ low ≤ n ∧ n ≤ high then some (n, cs.drop count) else none

def expect? (c : Char) : List Char → Option (List Char)
  | d :: cs => if c = d then some cs else none
  | [] => none

def isLeapYear (year : Nat) : Bool := year % 4 == 0 && (year % 100 != 0 || year % 400 == 0)

def daysIn (year month : Nat) : Nat :=
  if month = 2 then (if isLeapYear year then 29 else 28)
  else if month = 4 ∨ month = 6 ∨ month = 9 ∨ month = 11 then 30
  else 31

/-- Reads a date, as in `1979-05-27`. -/
def date? (cs : List Char) : Option (List Char) := do
  let (year, cs) ← field? 4 0 9999 cs
  let cs ← expect? '-' cs
  let (month, cs) ← field? 2 1 12 cs
  let cs ← expect? '-' cs
  let (_, cs) ← field? 2 1 (daysIn year month) cs
  return cs

/-- Reads a time of day, as in `07:32:00.5`. -/
def time? (cs : List Char) : Option (List Char) := do
  let (_, cs) ← field? 2 0 23 cs
  let cs ← expect? ':' cs
  let (_, cs) ← field? 2 0 59 cs
  let cs ← expect? ':' cs
  let (_, cs) ← field? 2 0 60 cs
  match cs with
  | '.' :: c :: cs => if isDecimal c then some (cs.dropWhile isDecimal) else none
  | cs => some cs

/-- Whether a text is empty or an offset from universal time. -/
def isOffset : List Char → Bool
  | [] => true
  | [c] => c == 'Z' || c == 'z'
  | c :: cs =>
      (c == '+' || c == '-') &&
        (do
          let (_, cs) ← field? 2 0 23 cs
          let cs ← expect? ':' cs
          let (_, cs) ← field? 2 0 59 cs
          if cs.isEmpty then some () else none).isSome

/-- Whether a text is a date, a time, or a date and time with an optional offset. -/
def isDateTime (cs : List Char) : Bool :=
  match date? cs with
  | some [] => true
  | some (c :: cs) =>
      (c == 'T' || c == 't' || c == ' ') && (time? cs).any isOffset
  | none => time? cs == some []

/-- The characters of unquoted values. -/
def isScalarChar (c : Char) : Bool :=
  c.isAlphanum || c == '+' || c == '-' || c == '_' || c == '.' || c == ':'

/-- What an unquoted text stands for. -/
def scalar? (cs : List Char) : Option Value :=
  if cs = "true".toList then some (.boolean true)
  else if cs = "false".toList then some (.boolean false)
  else if isDateTime cs then some (.dateTime (String.ofList cs))
  else if isFloat cs then some (.float (String.ofList cs))
  else (integer? cs).map .integer

end Plugboard.Toml
