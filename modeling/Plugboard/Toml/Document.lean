import Plugboard.Toml.Scalar
import Plugboard.Toml.Table
import Plugboard.Toml.Text

/-!
# Reading configuration documents

A document is a sequence of lines: headers, definitions, comments and blank
lines. Arrays may run over several lines and end in a comma; tables in braces may
not. Values nest less than 80 deep, and keys have less than 80 parts.
-/

namespace Plugboard.Toml

/-- How deep arrays and tables in braces may nest. -/
def maxNesting : Nat := 79

/-- Splits off an unquoted text. A date may be followed by one space and a time. -/
def cutScalar (c : Char) (cs : List Char) : List Char × NoLonger cs :=
  let run := c :: cs.takeWhile isScalarChar
  match h : cs.dropWhile isScalarChar with
  | ' ' :: d :: more =>
      if date? run = some [] ∧ isScalarChar d then
        (run ++ ' ' :: d :: more.takeWhile isScalarChar, ⟨more.dropWhile isScalarChar, by
          have h₁ := length_dropWhile_le isScalarChar cs
          have h₂ := length_dropWhile_le isScalarChar more
          rw [h] at h₁
          simp only [List.length_cons] at h₁
          omega⟩)
      else (run, .dropWhile isScalarChar cs)
  | _ => (run, .dropWhile isScalarChar cs)

/-- Reads an unquoted value. -/
def readScalar : (cs : List Char) → Read Value cs
  | [] => none
  | c :: cs =>
      if isScalarChar c then
        let (text, rest) := cutScalar c cs
        (scalar? text).map fun v => (v, rest.tail)
      else none

/-- Reads a key and the equals sign after it. -/
def readKeyAndEquals (cs : List Char) : Read (List String × String) cs :=
  match readKey cs with
  | none => none
  | some (names, mid) =>
      match names.getLast?, h : mid.1 with
      | some key, '=' :: rest =>
          if names.length < 80 then
            some ((names.dropLast, key), ⟨rest, by
              have := mid.2
              rw [h] at this
              simp only [List.length_cons] at this
              omega⟩)
          else none
      | _, _ => none

/-- The table in braces with the given definitions. -/
def ofDefinitions (pairs : List ((List String × String) × Value)) : Option Value :=
  (pairs.foldlM (fun es ((path, key), value) => Entries.define es path key value) []).map
    (.table .braces)

mutual

/-- Reads a value in which `room` further levels may be nested. -/
def readValue (room : Nat) (cs : List Char) : Read Value cs :=
  match cs with
  | [] => none
  | c :: cs =>
      if c = '"' ∨ c = '\'' then
        (readString c cs).map fun (text, rest) => (.string text, rest.later c)
      else if c = '[' then
        if room = 0 then none
        else (readItems (room - 1) cs).map fun (items, rest) => (.array items, rest.later c)
      else if c = '{' then
        if room = 0 then none
        else
          let blank := skipBlanks cs
          match h : blank.1 with
          | '}' :: rest => some (.table .braces [], ⟨rest, by
              have := blank.2
              rw [h] at this
              simp only [List.length_cons] at this ⊢
              omega⟩)
          | _ =>
              match readPairs (room - 1) cs with
              | none => none
              | some (pairs, rest) => (ofDefinitions pairs).map fun v => (v, rest.later c)
      else readScalar (c :: cs)
  termination_by 2 * cs.length

/-- Reads the items of an array up to its closing bracket. -/
def readItems (room : Nat) (cs : List Char) : Read (List Value) cs :=
  let start := skipLines cs
  have hstart : (skipLines cs).1.length ≤ cs.length := start.2
  match h : start.1 with
  | ']' :: rest => some ([], ⟨rest, by
      rw [show (skipLines cs).1 = ']' :: rest from h] at hstart
      simp only [List.length_cons] at hstart
      omega⟩)
  | _ =>
      match readValue room start.1 with
      | none => none
      | some (v, mid) =>
          let after := skipLines mid.1
          have hafter := Nat.le_trans after.2 (Nat.le_of_lt mid.2)
          match h : after.1 with
          | ',' :: more =>
              have hmore : more.length < cs.length := by
                rw [h] at hafter
                simp only [List.length_cons] at hafter
                omega
              match readItems room more with
              | none => none
              | some (vs, rest) => some (v :: vs, ⟨rest.1, Nat.lt_trans rest.2 hmore⟩)
          | ']' :: rest => some ([v], ⟨rest, by
              rw [h] at hafter
              simp only [List.length_cons] at hafter
              omega⟩)
          | _ => none
  termination_by 2 * cs.length + 1

/-- Reads the definitions of a table up to its closing brace, at least one. -/
def readPairs (room : Nat) (cs : List Char) :
    Read (List ((List String × String) × Value)) cs :=
  match readKeyAndEquals cs with
  | none => none
  | some (key, mid) =>
      let start := skipBlanks mid.1
      have hstart := Nat.lt_of_le_of_lt start.2 mid.2
      match readValue room start.1 with
      | none => none
      | some (v, rest) =>
          let after := skipBlanks rest.1
          have hafter := Nat.le_trans after.2 (Nat.le_of_lt rest.2)
          match h : after.1 with
          | ',' :: more =>
              have hmore : more.length < cs.length := by
                rw [h] at hafter
                simp only [List.length_cons] at hafter
                omega
              match readPairs room more with
              | none => none
              | some (pairs, rest) =>
                  some ((key, v) :: pairs, ⟨rest.1, Nat.lt_trans rest.2 hmore⟩)
          | '}' :: rest => some ([(key, v)], ⟨rest, by
              rw [h] at hafter
              simp only [List.length_cons] at hafter
              omega⟩)
          | _ => none
  termination_by 2 * cs.length

end

/-- Reads the name of a header up to its closing brackets. -/
def readHeader (closing : List Char) (cs : List Char) : Read (List String × String) cs :=
  match readKey cs with
  | none => none
  | some (names, mid) =>
      match names.getLast? with
      | some key =>
          if names.length < 80 ∧ closing.isPrefixOf mid.1 then
            some ((names.dropLast, key), ⟨mid.1.drop closing.length, by
              have := mid.2
              simp only [List.length_drop]
              omega⟩)
          else none
      | none => none

/-- What one line of a document does. -/
inductive Line where
  | blank
  | table (path : List String) (key : String)
  | element (path : List String) (key : String)
  | definition (path : List String) (key : String) (value : Value)

/-- Reads a line, or several if its value goes on over line ends. -/
def readLineOf (cs : List Char) : Option (Line × NoLonger cs) :=
  match cs with
  | [] => some (.blank, .same [])
  | '[' :: '[' :: text => do
      let ((path, key), rest) ← readHeader "]]".toList text
      return (.element path key, ⟨rest.1, by have := rest.2; simp only [List.length_cons]; omega⟩)
  | '[' :: text => do
      let ((path, key), rest) ← readHeader "]".toList text
      return (.table path key, ⟨rest.1, by have := rest.2; simp only [List.length_cons]; omega⟩)
  | c :: text =>
      if c = '#' ∨ c = '\n' ∨ c = '\r' then some (.blank, .same _)
      else do
        let ((path, key), mid) ← readKeyAndEquals (c :: text)
        let (value, rest) ← readValue maxNesting (skipBlanks mid.1).1
        return (.definition path key value, ⟨rest.1, by
          have h₁ := mid.2
          have h₂ := (skipBlanks mid.1).2
          have h₃ := rest.2
          omega⟩)

/-- Reads the lines of a text. -/
def readDocument (cs : List Char) : Option (List Line) :=
  match _h : cs with
  | [] => some []
  | _ :: _ =>
      let start := skipBlanks cs
      match readLineOf start.1 with
      | none => none
      | some (line, mid) =>
          match restOfLine? mid.1 with
          | none => none
          | some rest => (readDocument rest.1).map (line :: ·)
  termination_by cs.length
  decreasing_by
    have := start.2
    have := mid.2
    have hrest := rest.2
    have hcs := congrArg List.length ‹cs = _›
    rw [List.length_cons] at hcs ⊢
    by_cases hmid : mid.1 = []
    · have h₄ := congrArg List.length hmid
      rw [List.length_nil] at h₄
      omega
    · have := hrest.2 hmid
      omega

/-- What the lines so far define, and the header they stand under. -/
structure Document where
  entries : Entries
  table : List String

def Document.add (doc : Document) : Line → Option Document
  | .blank => some doc
  | .table path key =>
      (doc.entries.openTable path key).map fun entries => ⟨entries, path ++ [key]⟩
  | .element path key =>
      (doc.entries.openElement path key).map fun entries => ⟨entries, path ++ [key]⟩
  | .definition path key value =>
      (doc.entries.defineIn doc.table path key value).map fun entries => { doc with entries }

/-- The entries of a document. A byte order mark in front is ignored. -/
def parse (source : String) : Option Entries := do
  let text := match source.toList with
    | '\uFEFF' :: cs => cs
    | cs => cs
  let doc ← (← readDocument text).foldlM Document.add ⟨[], []⟩
  return doc.entries

end Plugboard.Toml
