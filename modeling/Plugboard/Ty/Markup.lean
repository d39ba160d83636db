import Plugboard.Markup.Parse
import Plugboard.Markup.Render
import Plugboard.Ty.Basic

/-!
# Types as markup

A type is stored as an element called `type` whose `type` attribute tells its
shape:

    <type type="literal" name="list"><type type="var" var="A"/></type>

Reading back ignores further attributes and repetitions of an attribute.
-/

namespace Plugboard

namespace Ty

open Markup

mutual

def toElement : Ty → Element
  | .var v => .node "type" [("type", "var"), ("var", v)] []
  | .con c ts => .node "type" [("type", "literal"), ("name", c)] (toElements ts)
  | .fn a r => .node "type" [("type", "function")] [a.toElement, r.toElement]

def toElements : List Ty → List Element
  | [] => []
  | t :: ts => t.toElement :: toElements ts

end

/-- Why an element is no type. -/
inductive Malformation where
  | unexpectedElement (name : String)
  | missingAttr (key : String)
  | varWithChildren
  | fnChildren (count : Nat)
  | unknownShape (name : String)
  | endOfDocument
  deriving DecidableEq

def Malformation.reason : Malformation → String
  | .unexpectedElement name => s!"expected <type>, found <{name}>"
  | .missingAttr key => s!"missing attribute `{key}`"
  | .varWithChildren => "type variable with children"
  | .fnChildren count => s!"function type with {count} children"
  | .unknownShape name => s!"unknown type kind `{name}`"
  | .endOfDocument => "unexpected end of document"

def Malformation.message (m : Malformation) : String := "malformed type element: " ++ m.reason

def requireAttr (attrs : List (String × String)) (key : String) : Except Malformation String :=
  match attrs.lookup key with
  | some value => .ok value
  | none => .error (.missingAttr key)

mutual

def ofElement : Element → Except Malformation Ty
  | .node name attrs children =>
      if name ≠ "type" then .error (.unexpectedElement name)
      else
        match requireAttr attrs "type" with
        | .error e => .error e
        | .ok shape =>
            if shape = "var" then
              if children.isEmpty then (requireAttr attrs "var").map .var
              else .error .varWithChildren
            else if shape = "literal" then
              match ofElements children with
              | .error e => .error e
              | .ok args => (requireAttr attrs "name").map (.con · args)
            else if shape = "function" then
              match children with
              | [arg, result] =>
                  match ofElement arg with
                  | .error e => .error e
                  | .ok a => (ofElement result).map (.fn a)
              | children => .error (.fnChildren children.length)
            else .error (.unknownShape shape)

def ofElements : List Element → Except Malformation (List Ty)
  | [] => .ok []
  | e :: es =>
      match ofElement e with
      | .error m => .error m
      | .ok t => (ofElements es).map (t :: ·)

end

/-- Why a text does not hold a type. -/
inductive MarkupError where
  | illFormed
  | attribute
  | malformed (m : Malformation)
  deriving DecidableEq

def toMarkup (t : Ty) : String := t.toElement.render

/-- The type in the first element of a document. -/
def ofMarkup (source : String) : Except MarkupError Ty :=
  match Element.parse source with
  | .error .illFormed => .error .illFormed
  | .error .attribute => .error .attribute
  | .error .endOfDocument => .error (.malformed .endOfDocument)
  | .ok e => (ofElement e).mapError .malformed

end Ty

end Plugboard
