/-!
# Markup elements

An element has a name, attributes in document order and child elements. Text
between elements carries no meaning here and is not kept.
-/

namespace Plugboard.Markup

inductive Element where
  | node (name : String) (attrs : List (String × String)) (children : List Element)
  deriving Inhabited

namespace Element

def name : Element → String
  | .node name _ _ => name

def attrs : Element → List (String × String)
  | .node _ attrs _ => attrs

def children : Element → List Element
  | .node _ _ children => children

/-- The value of the first attribute called `key`. -/
def attr? (e : Element) (key : String) : Option String := e.attrs.lookup key

end Element

/-- Why a text holds no element. -/
inductive ReadError where
  /-- A comment, declaration, tag or character reference is not well formed. -/
  | illFormed
  /-- The attributes of a tag are not well formed. -/
  | attribute
  /-- The text ends before its first element does. -/
  | endOfDocument
  deriving DecidableEq

end Plugboard.Markup
