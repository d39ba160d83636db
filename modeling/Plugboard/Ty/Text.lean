import Plugboard.Ty.Basic

/-!
# The written form of types

Arrows associate to the right, so only a function in argument position is put
in parentheses. Constructor arguments follow the name in angle brackets. Asking
a type for a part that its shape lacks is an error that quotes the type.
-/

namespace Plugboard

namespace Ty

mutual

def render : Ty → String
  | .var v => v
  | .con c [] => c
  | .con c (t :: ts) => c ++ "<" ++ t.render ++ renderMore ts ++ ">"
  | .fn a r =>
      (if a.isFn then "(" ++ a.render ++ ")" else a.render) ++ " -> " ++ r.render

/-- The arguments after the first, each behind its comma. -/
def renderMore : List Ty → String
  | [] => ""
  | t :: ts => ", " ++ t.render ++ renderMore ts

end

instance : ToString Ty := ⟨render⟩

/-- The three shapes of a type. -/
inductive Shape where
  | var
  | con
  | fn
  deriving DecidableEq

def Shape.name : Shape → String
  | .var => "type variable"
  | .con => "literal"
  | .fn => "function"

/-- A part was asked for that only types of shape `expected` have. -/
structure ShapeError where
  expected : Shape
  found : Ty
  deriving DecidableEq

def ShapeError.message (e : ShapeError) : String :=
  s!"not this variant: expected {e.expected.name}, found `{e.found}`"

def varName : Ty → Except ShapeError String
  | .var v => .ok v
  | t => .error ⟨.var, t⟩

def conName : Ty → Except ShapeError String
  | .con c _ => .ok c
  | t => .error ⟨.con, t⟩

def conArgs : Ty → Except ShapeError (List Ty)
  | .con _ ts => .ok ts
  | t => .error ⟨.con, t⟩

def fnArg : Ty → Except ShapeError Ty
  | .fn a _ => .ok a
  | t => .error ⟨.fn, t⟩

def fnResult : Ty → Except ShapeError Ty
  | .fn _ r => .ok r
  | t => .error ⟨.fn, t⟩

end Ty

end Plugboard
