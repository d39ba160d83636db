import Plugboard.Env

/-!
# Built-in names

The operators and statements that every program can use, with their types.
-/

namespace Plugboard

namespace Prelude

/-- The names that comprehensions are built from. -/
def bindName : String := "bind"
def guardName : String := "guard"
def yieldName : String := "yield"
def consName : String := ":"
def nilName : String := "[]"

def picture : Ty := .base "Picture"
def colour : Ty := .base "Color"

/-- The scheme of an operator that takes `args` to `result`. -/
def operator (args : List Ty) (result : Ty) : Scheme := .closed (.curried args result)

def operators : List (String × Scheme) :=
  let a := Ty.var "a"
  let b := Ty.var "b"
  let n := Ty.number
  let t := Ty.bool
  [ ("+", operator [n, n] n),
    ("-", operator [n, n] n),
    ("*", operator [n, n] n),
    ("/", operator [n, n] n),
    ("^", operator [n, n] n),
    ("negate", operator [n] n),
    ("abs", operator [n] n),
    ("sqrt", operator [n] n),
    ("==", operator [a, a] t),
    ("!=", operator [a, a] t),
    ("<", operator [a, a] t),
    ("<=", operator [a, a] t),
    (">", operator [a, a] t),
    (">=", operator [a, a] t),
    ("&&", operator [t, t] t),
    ("||", operator [t, t] t),
    ("not", operator [t] t),
    ("if", operator [t, a, a] a),
    (",", operator [a, b] (.pair a b)),
    ("fst", operator [.pair a b] a),
    ("snd", operator [.pair a b] b),
    (consName, operator [a, .list a] (.list a)),
    (nilName, operator [] (.list a)),
    ("length", operator [.list a] n),
    ("at", operator [.list a, n] a),
    ("numgen", operator [n, n] (.list n)),
    ("++", operator [.text, .text] .text),
    ("show", operator [n] .text),
    (bindName, operator [.list a, .fn a (.list b)] (.list b)),
    (guardName, operator [t, .list a] (.list a)),
    (yieldName, operator [a] (.list a)),
    ("circle", operator [n] picture),
    ("solidCircle", operator [n] picture),
    ("rectangle", operator [n, n] picture),
    ("text", operator [.text] picture),
    ("path", operator [.list (.pair n n)] picture),
    ("&", operator [picture, picture] picture),
    ("pictures", operator [.list picture] picture),
    ("translated", operator [picture, n, n] picture),
    ("rotated", operator [picture, n] picture),
    ("scaled", operator [picture, n, n] picture),
    ("colored", operator [picture, colour] picture),
    ("rgb", operator [n, n, n] colour) ]

/-- The environment of all operators. -/
def env : Env := .ofList operators

/-- The statements, with the types of their slots in order. -/
def statements : Std.ExtTreeMap String (List Ty) :=
  .ofList [("drawingOf", [picture]), ("animationOf", [.fn .number picture])]

end Prelude

end Plugboard
