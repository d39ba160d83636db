import Plugboard.Digit
import Plugboard.Reading

/-!
# Lines, keys and strings of a configuration document

Strings come in four forms: in double quotes with escapes or in single quotes
without, on one line or, between tripled quotes, on several. In the latter the
first line end is dropped and up to two quotes may stand before the closing three.
-/

namespace Plugboard.Toml

/-- Something read from the front of a text. -/
abbrev Read (α : Type) (cs : List Char) := Option (α × Shorter cs)

def isBlank (c : Char) : Bool := c == ' ' || c == '\t'

/-- The characters that a comment may hold, and a string unescaped apart from its
quotes: all but control characters other than tab. -/
def isPlain (c : Char) : Bool := c == '\t' || (' ' ≤ c && c != '\x7f')

def isBareKey (c : Char) : Bool := c.isAlphanum || c == '-' || c == '_'

def skipBlanks (cs : List Char) : NoLonger cs := .dropWhile isBlank cs

/-- Reads one line end. -/
def lineEnd? : (cs : List Char) → Option (Shorter cs)
  | '\n' :: cs => some (.tail _ cs)
  | '\r' :: '\n' :: cs => some (.later _ (.tail _ cs))
  | _ => none

/-- Skips a comment, up to the end of its line. -/
def skipComment : (cs : List Char) → NoLonger cs
  | '#' :: cs => ⟨cs.dropWhile isPlain, Nat.le_succ_of_le (length_dropWhile_le _ _)⟩
  | cs => .same cs

/-- Skips blanks, comments and line ends. -/
def skipLines (cs : List Char) : NoLonger cs :=
  match cs with
  | [] => .same []
  | c :: cs' =>
      if isBlank c then
        let rest := skipLines cs'
        ⟨rest.1, Nat.le_succ_of_le rest.2⟩
      else if c = '#' then
        have hdrop := length_dropWhile_le isPlain cs'
        let rest := skipLines (cs'.dropWhile isPlain)
        ⟨rest.1, Nat.le_succ_of_le (Nat.le_trans rest.2 hdrop)⟩
      else
        match lineEnd? (c :: cs') with
        | none => .same _
        | some mid =>
            have : mid.1.length < cs'.length + 1 := mid.2
            let rest := skipLines mid.1
            ⟨rest.1, Nat.le_trans rest.2 (Nat.le_of_lt mid.2)⟩
  termination_by cs.length

/-- Reads the rest of a line on which nothing but blanks and a comment is left,
or the end of the text. -/
def restOfLine? (cs : List Char) :
    Option { rest : List Char // rest.length ≤ cs.length ∧ (cs ≠ [] → rest.length < cs.length) } :=
  let blank := skipBlanks cs
  let rest := skipComment blank.1
  match h : rest.1 with
  | [] => some ⟨[], Nat.zero_le _, List.length_pos_iff.2⟩
  | c :: cs' =>
      (lineEnd? (c :: cs')).map fun (after : Shorter (c :: cs')) =>
        have hle : (c :: cs').length ≤ cs.length := h ▸ Nat.le_trans rest.2 blank.2
        have hlt := Nat.lt_of_lt_of_le after.2 hle
        ⟨after.1, Nat.le_of_lt hlt, fun _ => hlt⟩

/-- Reads a character given by exactly `count` hexadecimal digits. -/
def readCode (count : Nat) (cs : List Char) : Option (Char × NoLonger cs) := do
  if cs.length < count then none
  let code ← number? 16 (cs.take count)
  if code.isValidChar then some (Char.ofNat code, ⟨cs.drop count, by simp⟩) else none

/-- Reads what follows the backslash of an escaped character. -/
def readEscape : (cs : List Char) → Read Char cs
  | [] => none
  | c :: cs =>
      match c with
      | 'b' => some ('\x08', .tail _ cs)
      | 't' => some ('\t', .tail _ cs)
      | 'n' => some ('\n', .tail _ cs)
      | 'f' => some ('\x0c', .tail _ cs)
      | 'r' => some ('\r', .tail _ cs)
      | '"' => some ('"', .tail _ cs)
      | '\\' => some ('\\', .tail _ cs)
      | 'u' => (readCode 4 cs).map fun (c, rest) => (c, rest.tail)
      | 'U' => (readCode 8 cs).map fun (c, rest) => (c, rest.tail)
      | _ => none

/-- Reads a string on one line up to its closing quote. Only double quotes allow escapes. -/
def readLine (quote : Char) (cs : List Char) : Read (List Char) cs :=
  match cs with
  | [] => none
  | c :: cs =>
      if c = quote then some ([], .tail _ cs)
      else if c = '\\' ∧ quote = '"' then
        match readEscape cs with
        | none => none
        | some (d, mid) =>
            have := mid.2
            (readLine quote mid.1).map fun (text, rest) => (d :: text, (mid.trans rest).later c)
      else if isPlain c then
        (readLine quote cs).map fun (text, rest) => (c :: text, rest.later c)
      else none
  termination_by cs.length

/-- Reads a line end that an escaping backslash joins to the next text: blanks,
the line end, and all blanks and line ends after it. -/
def joinLines? (cs : List Char) : Option (Shorter cs) :=
  let blank := skipBlanks cs
  (lineEnd? blank.1).map fun after => ⟨(skipSpacing after.1).1, by
    have h₁ := after.2
    have h₂ := blank.2
    have h₃ := (skipSpacing after.1).2
    omega⟩
where
  /-- Skips blanks and line ends. -/
  skipSpacing (cs : List Char) : NoLonger cs :=
    match cs with
    | [] => .same []
    | c :: cs' =>
        if isBlank c then
          let rest := skipSpacing cs'
          ⟨rest.1, Nat.le_succ_of_le rest.2⟩
        else
          match lineEnd? (c :: cs') with
          | none => .same _
          | some mid =>
              have : mid.1.length < cs'.length + 1 := mid.2
              let rest := skipSpacing mid.1
              ⟨rest.1, Nat.le_trans rest.2 (Nat.le_of_lt mid.2)⟩
  termination_by cs.length

/-- Reads a string on several lines up to its closing quotes. Of a run of quotes
the last three close the string, if there are three to five. -/
def readLines (quote : Char) (cs : List Char) : Read (List Char) cs :=
  match cs with
  | [] => none
  | c :: cs =>
      if c = quote then
        let run := cs.takeWhile (· == quote)
        have hdrop := length_dropWhile_le (· == quote) cs
        if run.length < 2 then
          (readLines quote (cs.dropWhile (· == quote))).map fun (text, rest) =>
            (c :: run ++ text, ⟨rest.1, Nat.lt_succ_of_lt (Nat.lt_of_lt_of_le rest.2 hdrop)⟩)
        else if run.length < 5 then
          some (run.drop 2, ⟨cs.dropWhile (· == quote), Nat.lt_succ_of_le hdrop⟩)
        else none
      else if c = '\\' ∧ quote = '"' then
        match joinLines? cs with
        | some mid =>
            have := mid.2
            (readLines quote mid.1).map fun (text, rest) => (text, (mid.trans rest).later c)
        | none =>
            match readEscape cs with
            | none => none
            | some (d, mid) =>
                have := mid.2
                (readLines quote mid.1).map fun (text, rest) =>
                  (d :: text, (mid.trans rest).later c)
      else if isPlain c then
        (readLines quote cs).map fun (text, rest) => (c :: text, rest.later c)
      else
        match lineEnd? (c :: cs) with
        | none => none
        | some mid =>
            have : mid.1.length < cs.length + 1 := mid.2
            (readLines quote mid.1).map fun (text, rest) => ('\n' :: text, mid.trans rest)
  termination_by cs.length

/-- Reads a string in any of its four forms, after `quote` has been read. -/
def readString (quote : Char) (cs : List Char) : Read String cs :=
  if cs.take 2 = [quote, quote] then
    let body : NoLonger (cs.drop 2) :=
      match lineEnd? (cs.drop 2) with
      | some rest => ⟨rest.1, Nat.le_of_lt rest.2⟩
      | none => .same _
    (readLines quote body.1).map fun (text, rest) => (String.ofList text, ⟨rest.1, by
      have h₁ := rest.2
      have h₂ := body.2
      simp at h₂
      omega⟩)
  else (readLine quote cs).map fun (text, rest) => (String.ofList text, rest)

/-- Reads one part of a key: a bare name, or a string on one line. -/
def readName : (cs : List Char) → Read String cs
  | [] => none
  | c :: cs =>
      if c = '"' ∨ c = '\'' then
        (readLine c cs).map fun (text, rest) => (String.ofList text, rest.later c)
      else if isBareKey c then
        some (String.ofList (c :: cs.takeWhile isBareKey), (NoLonger.dropWhile isBareKey cs).tail)
      else none

/-- Reads a key: names with dots between them, blanks being allowed around each. -/
def readKey (cs : List Char) : Read (List String) cs :=
  let blank := skipBlanks cs
  match readName blank.1 with
  | none => none
  | some (name, mid) =>
      let rest := blank.trans (mid.dropWhile isBlank)
      match h : rest.1 with
      | '.' :: more =>
          have hmore : more.length < cs.length := by
            have := rest.2
            rw [h] at this
            simp at this
            omega
          (readKey more).map fun (names, rest') =>
            (name :: names, ⟨rest'.1, Nat.lt_trans rest'.2 hmore⟩)
      | _ => some ([name], rest)
  termination_by cs.length

end Plugboard.Toml
