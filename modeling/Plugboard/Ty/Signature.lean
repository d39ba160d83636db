import Plugboard.Reading
import Plugboard.Ty.Text

/-!
# Reading types

A signature is split into tokens by the longest match, with ASCII whitespace
between them, and then read by recursive descent:

    type ::= atom | atom '->' type
    atom ::= '(' type ')' | Ident | Ident '<' type (',' type)* '>'

A bare identifier is a variable if it starts with a lowercase letter and a base
type otherwise. The whole text is split before any of it is read, so that a
character that starts no token is reported before any other mistake.
-/

namespace Plugboard

namespace Signature

inductive Token where
  | arrow
  | openAngle
  | closeAngle
  | comma
  | openParen
  | closeParen
  | ident (name : String)
  deriving DecidableEq

def Token.describe : Token → String
  | .arrow => "'->'"
  | .openAngle => "'<'"
  | .closeAngle => "'>'"
  | .comma => "','"
  | .openParen => "'('"
  | .closeParen => "')'"
  | .ident name => s!"identifier '{name}'"

inductive Mistake where
  /-- No token starts at the first character of `rest`, a suffix of `source`. -/
  | unreadable (source rest : String)
  | unexpected (found : Token)
  | unexpectedEnd
  | unclosedParen (found : Option Token)
  | badSeparator (found : Token)
  | unclosedAngle
  deriving DecidableEq

def Mistake.reason : Mistake → String
  | .unreadable source rest =>
      let position := source.utf8ByteSize - rest.utf8ByteSize
      s!"Failed to lex '{source}' at position {position}; remaining '{rest}'"
  | .unexpected found => s!"unexpected {found.describe}"
  | .unexpectedEnd => "unexpected end of input"
  | .unclosedParen (some found) => s!"expected ')', found {found.describe}"
  | .unclosedParen none => "expected ')', found end of input"
  | .badSeparator found => s!"expected ',' or '>', found {found.describe}"
  | .unclosedAngle => "unclosed '<'"

/-- A text that is not a signature, and why. -/
structure Error where
  source : String
  mistake : Mistake
  deriving DecidableEq

def Error.message (e : Error) : String :=
  s!"invalid signature `{e.source}`: {e.mistake.reason}"

/-- The characters that may stand between tokens. -/
def isBlank (c : Char) : Bool :=
  c == ' ' || c == '\t' || c == '\n' || c == '\r' || c == '\x0c'

/-- The characters that start an identifier. -/
def isInitial (c : Char) : Bool := c.isAlpha || c == '_'

/-- The characters that continue an identifier. -/
def isFollowing (c : Char) : Bool := c.isAlphanum || c == '_'

/-- Splits a text into tokens, or gives the part of it at which no token starts. -/
def scan : List Char → Except (List Char) (List Token)
  | [] => .ok []
  | '-' :: '>' :: cs => (scan cs).map (.arrow :: ·)
  | '<' :: cs => (scan cs).map (.openAngle :: ·)
  | '>' :: cs => (scan cs).map (.closeAngle :: ·)
  | ',' :: cs => (scan cs).map (.comma :: ·)
  | '(' :: cs => (scan cs).map (.openParen :: ·)
  | ')' :: cs => (scan cs).map (.closeParen :: ·)
  | c :: cs =>
      if isBlank c then scan cs
      else if isInitial c then
        have := length_dropWhile_le isFollowing cs
        (scan (cs.dropWhile isFollowing)).map
          (.ident (String.ofList (c :: cs.takeWhile isFollowing)) :: ·)
      else .error (c :: cs)
  termination_by cs => cs.length

/-- Something read from the front of a token list. -/
abbrev Read (α : Type) (tokens : List Token) := Except Mistake (α × Shorter tokens)

mutual

/-- Reads `atom | atom '->' type`. -/
def readType (tokens : List Token) : Read Ty tokens :=
  match readAtom tokens with
  | .error e => .error e
  | .ok (arg, ⟨.arrow :: rest, h⟩) =>
      have : rest.length < tokens.length := by simp at h; omega
      match readType rest with
      | .error e => .error e
      | .ok (result, ⟨rest', h'⟩) => .ok (.fn arg result, ⟨rest', by omega⟩)
  | .ok (arg, rest) => .ok (arg, rest)
  termination_by (tokens.length, 1)

def readAtom (tokens : List Token) : Read Ty tokens :=
  match tokens with
  | [] => .error .unexpectedEnd
  | .openParen :: tokens =>
      match readType tokens with
      | .error e => .error e
      | .ok (inner, ⟨.closeParen :: rest, h⟩) =>
          .ok (inner, ⟨rest, by simp at h; simp; omega⟩)
      | .ok (_, ⟨found :: _, _⟩) => .error (.unclosedParen (some found))
      | .ok (_, ⟨[], _⟩) => .error (.unclosedParen none)
  | .ident name :: .openAngle :: tokens =>
      match readArgs tokens with
      | .error e => .error e
      | .ok (args, ⟨rest, h⟩) => .ok (.con name args, ⟨rest, by simp; omega⟩)
  | .ident name :: rest =>
      .ok (if name.front.isLower then .var name else .base name, ⟨rest, by simp⟩)
  | found :: _ => .error (.unexpected found)
  termination_by (tokens.length, 0)

/-- Reads `type (',' type)* '>'`. -/
def readArgs (tokens : List Token) : Read (List Ty) tokens :=
  match readType tokens with
  | .error e => .error e
  | .ok (first, ⟨.comma :: rest, h⟩) =>
      have : rest.length < tokens.length := by simp at h; omega
      match readArgs rest with
      | .error e => .error e
      | .ok (more, ⟨rest', h'⟩) => .ok (first :: more, ⟨rest', by omega⟩)
  | .ok (first, ⟨.closeAngle :: rest, h⟩) =>
      .ok ([first], ⟨rest, by simp at h; omega⟩)
  | .ok (_, ⟨found :: _, _⟩) => .error (.badSeparator found)
  | .ok (_, ⟨[], _⟩) => .error .unclosedAngle
  termination_by (tokens.length, 2)

end

/-- Reads a whole token list as one type. -/
def readAll (tokens : List Token) : Except Mistake Ty :=
  match readType tokens with
  | .error e => .error e
  | .ok (t, ⟨[], _⟩) => .ok t
  | .ok (_, ⟨found :: _, _⟩) => .error (.unexpected found)

end Signature

/-- Reads a type from its written form. -/
def Ty.parse (source : String) : Except Signature.Error Ty :=
  match Signature.scan source.toList with
  | .error rest => .error ⟨source, .unreadable source (String.ofList rest)⟩
  | .ok tokens => (Signature.readAll tokens).mapError (⟨source, ·⟩)

end Plugboard
