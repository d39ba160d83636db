import Plugboard.Markup.Element
import Plugboard.Markup.Escape
import Plugboard.Reading

/-!
# Splitting markup into tags

The text of a document is a sequence of tags with skipped material between them:
character data, comments, declarations and processing instructions. Each is cut
off at its own end mark. A tag ends at the first `>` outside quotes.
-/

namespace Plugboard.Markup

def isSpace (c : Char) : Bool := c == ' ' || c == '\t' || c == '\r' || c == '\n'

/-- Cuts at the first `>` whose preceding text, given backwards, is a possible
end. The result is the text before it and the rest after it. -/
def cutWhere (isEnd : List Char → Bool) (before : List Char) :
    (cs : List Char) → Option (List Char × Shorter cs)
  | [] => none
  | c :: cs =>
      if c = '>' ∧ isEnd before then some (before.reverse, .tail c cs)
      else (cutWhere isEnd (c :: before) cs).map fun (body, rest) => (body, rest.later c)

/-- Cuts at the first `>`, or at the end of the text if there is none. -/
def cutFirst : (cs : List Char) → List Char × NoLonger cs
  | [] => ([], .same [])
  | c :: cs =>
      if c = '>' then ([], ⟨cs, Nat.le_succ _⟩)
      else
        let (body, rest) := cutFirst cs
        (c :: body, ⟨rest.1, Nat.le_succ_of_le rest.2⟩)

/-- Cuts at the first `>` outside quotes. `quote` is the quote that is open. -/
def cutTag (quote : Option Char) : (cs : List Char) → Option (List Char × Shorter cs)
  | [] => none
  | c :: cs =>
      let next := match quote with
        | some q => if c = q then none else some q
        | none => if c = '"' ∨ c = '\'' then some c else none
      if c = '>' ∧ quote = none then some ([], .tail c cs)
      else (cutTag next cs).map fun (body, rest) => (c :: body, rest.later c)

/-- Whether a text starts with `mark`, which is in upper case, in either case. -/
def startsWithFolded (mark text : List Char) : Bool :=
  mark.isPrefixOf (text.map Char.toUpper)

/-- Cuts off a comment, character data section or document type. The text
starts with an exclamation mark, and the next character tells which it is. -/
def skipBang (cs : List Char) : Option (Shorter cs) :=
  match cs[1]? with
  | some '-' => do
      let (body, rest) ← cutWhere
        (fun before => decide (4 < before.length) && "--".toList.isPrefixOf before) [] cs
      if "!--".toList.isPrefixOf body then some rest else none
  | some '[' => do
      let (body, rest) ← cutWhere (fun before => "]]".toList.isPrefixOf before) [] cs
      if startsWithFolded "![CDATA[".toList body then some rest else none
  | some c => do
      if c ≠ 'D' ∧ c ≠ 'd' then none
      let (body, rest) ← cutWhere (fun before => before.count '<' == before.count '>') [] cs
      if startsWithFolded "!DOCTYPE".toList body && ! (body.drop 8).all isSpace then some rest
      else none
  | none => none

/-- Drops whitespace at the end, unless there is nothing else. -/
def trimEnd (cs : List Char) : List Char :=
  if cs.all isSpace then cs else (cs.reverse.dropWhile isSpace).reverse

/-- Reads a quoted value, up to its closing quote. -/
def cutQuoted (quote : Char) : (cs : List Char) → Option (List Char × Shorter cs)
  | [] => none
  | c :: cs =>
      if c = quote then some ([], .tail c cs)
      else (cutQuoted quote cs).map fun (value, rest) => (c :: value, rest.later c)

/-- Reads attributes. The first character of a key may be anything; the key goes
on to whitespace or an equals sign. `seen` holds the keys read so far. -/
def readAttrs (seen : List (List Char)) (cs : List Char) :
    Except ReadError (List (String × String)) :=
  match h : cs.dropWhile isSpace with
  | [] => .ok []
  | k :: afterKey =>
      have hlt : afterKey.length < cs.length := by
        have := length_dropWhile_le isSpace cs
        simp only [h, List.length_cons] at this ⊢
        omega
      let inKey := fun c => ! (c == '=' || isSpace c)
      let key := k :: afterKey.takeWhile inKey
      match h₁ : (afterKey.dropWhile inKey).dropWhile isSpace with
      | '=' :: afterEq =>
          if seen.contains key then .error .attribute
          else
            match h₂ : afterEq.dropWhile isSpace with
            | quote :: afterQuote =>
                if quote = '"' ∨ quote = '\'' then
                  match cutQuoted quote afterQuote with
                  | none => .error .attribute
                  | some (written, rest) =>
                      match unescape written with
                      | none => .error .illFormed
                      | some value =>
                          have : rest.1.length < cs.length := by
                            have h1 := length_dropWhile_le inKey afterKey
                            have h2 := length_dropWhile_le isSpace (afterKey.dropWhile inKey)
                            have h3 := length_dropWhile_le isSpace afterEq
                            have h4 := rest.2
                            rw [h₁] at h2
                            rw [h₂] at h3
                            simp only [List.length_cons] at h2 h3
                            omega
                          match readAttrs (key :: seen) rest.1 with
                          | .error e => .error e
                          | .ok attrs =>
                              .ok ((String.ofList key, String.ofList value) :: attrs)
                else .error .attribute
            | [] => .error .attribute
      | _ => .error .attribute
  termination_by cs.length

/-- A tag of a document. -/
inductive Tag where
  | opening (name : String) (attrs : List (String × String))
  | selfClosing (name : String) (attrs : List (String × String))
  | closing (name : List Char)

/-- The opening or self-closing tag with the given text between its brackets. A
slash at the end makes it self-closing. -/
def tagOfText (body : List Char) : Except ReadError Tag :=
  let closes := body.getLast? == some '/'
  let inner := if closes then body.dropLast else body
  let name := String.ofList (inner.takeWhile fun c => ! isSpace c)
  match readAttrs [] (inner.dropWhile fun c => ! isSpace c) with
  | .error e => .error e
  | .ok attrs => .ok (if closes then .selfClosing name attrs else .opening name attrs)

/-- The next tag of a text and what follows it; nothing at the end. -/
def nextTag (cs : List Char) : Except ReadError (Option (Tag × Shorter cs)) :=
  match h : cs.dropWhile (· ≠ '<') with
  | [] => .ok none
  | [_] => .ok none
  | _ :: c :: rest =>
      have hlt : (c :: rest).length < cs.length := by
        have := length_dropWhile_le (· ≠ '<') cs
        simp only [h, List.length_cons] at this ⊢
        omega
      if c = '!' then
        match skipBang (c :: rest) with
        | none => .error .illFormed
        | some after =>
            have := after.2
            match nextTag after.1 with
            | .error e => .error e
            | .ok none => .ok none
            | .ok (some (tag, rest')) => .ok (some (tag, ⟨rest'.1, by have := rest'.2; omega⟩))
      else if c = '?' then
        let (body, after) := cutFirst rest
        have := after.2
        if 0 < body.dropLast.length ∧ body.getLast? = some '?' then
          match nextTag after.1 with
          | .error e => .error e
          | .ok none => .ok none
          | .ok (some (tag, rest')) =>
              .ok (some (tag, ⟨rest'.1, by have := rest'.2; simp at hlt; omega⟩))
        else .error .illFormed
      else if c = '/' then
        let (body, after) := cutFirst rest
        .ok (some (.closing (trimEnd body), ⟨after.1, by have := after.2; simp at hlt; omega⟩))
      else
        match cutTag none (c :: rest) with
        | none => .error .illFormed
        | some (body, after) =>
            match tagOfText body with
            | .error e => .error e
            | .ok tag => .ok (some (tag, ⟨after.1, by have := after.2; omega⟩))
  termination_by cs.length
  decreasing_by
    · omega
    · simp at hlt
      omega

end Plugboard.Markup
