import Plugboard.Ty.Signature

/-!
# Type schemes

A scheme is a type with a list of quantified names. The list keeps the order in
which the names were given and may repeat names or hold names that do not occur.
-/

namespace Plugboard

structure Scheme where
  vars : List String
  body : Ty
  deriving DecidableEq, Inhabited

namespace Scheme

/-- The scheme that quantifies nothing. -/
def mono (t : Ty) : Scheme := ⟨[], t⟩

/-- The scheme that quantifies every variable of `t`, in order. -/
def closed (t : Ty) : Scheme := ⟨t.freeVars.toList, t⟩

def parse (source : String) : Except Signature.Error Scheme :=
  (Ty.parse source).map closed

def freeVars (scheme : Scheme) : NameSet :=
  scheme.body.freeVars.filter (! scheme.vars.contains ·)

def render (scheme : Scheme) : String :=
  if scheme.vars.isEmpty then scheme.body.render
  else "forall " ++ " ".intercalate scheme.vars ++ ". " ++ scheme.body.render

instance : ToString Scheme := ⟨render⟩

end Scheme

end Plugboard
