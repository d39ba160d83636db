import Plugboard.Tag
import Plugboard.Ty.Text

/-!
# Terms

The small functional language whose types are inferred: variables, literals of a
known type, applications, abstractions and local definitions. Every node may
carry the tag of the part of a program it stands for; tags never influence a type.
-/

namespace Plugboard

inductive Term where
  | var (name : String) (tag : Option Tag)
  | lit (ty : Ty) (tag : Option Tag)
  | app (func arg : Term) (tag : Option Tag)
  | lam (param : String) (body : Term) (tag : Option Tag)
  | letIn (name : String) (bound body : Term) (tag : Option Tag)
  deriving DecidableEq, Inhabited

namespace Term

def tag : Term → Option Tag
  | .var _ tag | .lit _ tag | .app _ _ tag | .lam _ _ tag | .letIn _ _ _ tag => tag

/-- Puts a tag on the outermost node, in place of any tag there. -/
def tagged (tag : Tag) : Term → Term
  | .var name _ => .var name (some tag)
  | .lit ty _ => .lit ty (some tag)
  | .app func arg _ => .app func arg (some tag)
  | .lam param body _ => .lam param body (some tag)
  | .letIn name bound body _ => .letIn name bound body (some tag)

/-- `func` applied to `args` from left to right. -/
def applyAll (func : Term) (args : List Term) : Term :=
  args.foldl (fun func arg => .app func arg none) func

/-- An abstraction over `params`, the first outermost. -/
def lamAll (params : List String) (body : Term) : Term :=
  params.foldr (fun param body => .lam param body none) body

/-- How much a subterm has to be set off by parentheses. -/
inductive Position where
  | top
  | func
  | arg
  deriving DecidableEq

def parenthesized (text : String) : String := "(" ++ text ++ ")"

/-- The written form of a term. Only an application may stand bare where a
function is expected, and no compound term where an argument is. -/
def renderAt : Position → Term → String
  | _, .var name _ => name
  | _, .lit ty _ => "<" ++ ty.render ++ ">"
  | at_, .app func arg _ =>
      let text := renderAt .func func ++ " " ++ renderAt .arg arg
      if at_ = .arg then parenthesized text else text
  | at_, .lam param body _ =>
      let text := "\\" ++ param ++ " -> " ++ renderAt .top body
      if at_ = .top then text else parenthesized text
  | at_, .letIn name bound body _ =>
      let text := "let " ++ name ++ " = " ++ renderAt .top bound ++ " in " ++ renderAt .top body
      if at_ = .top then text else parenthesized text

def render (t : Term) : String := renderAt .top t

instance : ToString Term := ⟨render⟩

end Term

end Plugboard
