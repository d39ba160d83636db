import Plugboard.Markup.Element
import Plugboard.Markup.Escape

/-!
# The written form of elements

An element without children is written as one self-closing tag. Attribute values
stand in double quotes; nothing is put between tags.
-/

namespace Plugboard.Markup

def renderAttrs (attrs : List (String × String)) : String :=
  String.join (attrs.map fun (key, value) =>
    " " ++ key ++ "=\"" ++ String.ofList (escape value.toList) ++ "\"")

mutual

def Element.render : Element → String
  | .node name attrs [] => "<" ++ name ++ renderAttrs attrs ++ "/>"
  | .node name attrs (child :: children) =>
      "<" ++ name ++ renderAttrs attrs ++ ">" ++ child.render ++ renderAll children ++
        "</" ++ name ++ ">"

def renderAll : List Element → String
  | [] => ""
  | e :: es => e.render ++ renderAll es

end

end Plugboard.Markup
