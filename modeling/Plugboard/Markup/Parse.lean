import Plugboard.Markup.Scan

/-!
# Reading elements

The first element of a document, built up from its tags. An end tag has to name
the innermost open element. Nothing after the end of the element is looked at.
-/

namespace Plugboard.Markup

/-- An element whose end tag has not been read: its name, its attributes, and
its children so far with the newest first. -/
structure Open where
  name : String
  attrs : List (String × String)
  children : List Element

/-- Puts a finished element into the innermost open one, if there is one. -/
def finish (e : Element) : List Open → Element ⊕ List Open
  | [] => .inl e
  | o :: os => .inr ({ o with children := e :: o.children } :: os)

/-- Reads on while the elements in `stack` are open, the innermost first. -/
def readElement (stack : List Open) (cs : List Char) : Except ReadError Element :=
  match nextTag cs with
  | .error e => .error e
  | .ok none => .error .endOfDocument
  | .ok (some (tag, rest)) =>
      have := rest.2
      match tag with
      | .opening name attrs => readElement (⟨name, attrs, []⟩ :: stack) rest.1
      | .selfClosing name attrs =>
          match finish (.node name attrs []) stack with
          | .inl e => .ok e
          | .inr stack => readElement stack rest.1
      | .closing name =>
          match stack with
          | [] => .error .illFormed
          | o :: os =>
              if o.name.toList = name then
                match finish (.node o.name o.attrs o.children.reverse) os with
                | .inl e => .ok e
                | .inr stack => readElement stack rest.1
              else .error .illFormed
  termination_by cs.length

/-- The first element of a document. -/
def Element.parse (source : String) : Except ReadError Element :=
  readElement [] source.toList

end Plugboard.Markup
