import Plugboard.Block.DataDecl
import Plugboard.Block.Slot

/-!
# Kinds of blocks
-/

namespace Plugboard

/-- One arm of a case block: a constructor and the names for its fields. -/
structure Arm where
  constructor : String
  binders : List String
  deriving DecidableEq

inductive BlockKind where
  | literal (value : String) (ty : Ty)
  /-- A call of a built-in operator, a constructor or a function. -/
  | operator (name : String) (arity : Nat)
  | variable (name : String)
  | lambda (param : String)
  | apply
  | localLet (name : String)
  | list (items : Nat)
  /-- `[DO | v₁ <- l₁, ..., vₙ <- lₙ, g₁, ..., gₘ]` -/
  | comprehension (vars : List String) (guards : Nat)
  | cases (typeName : String) (arms : List Arm)
  | function (name : String) (params : List String)
  | data (decl : DataDecl)
  | statement (name : String)
  deriving DecidableEq

namespace BlockKind

def hasOutput : BlockKind → Bool
  | .function _ _ | .data _ | .statement _ => false
  | _ => true

def isDeclaration : BlockKind → Bool
  | .data _ => true
  | _ => false

def isStatement : BlockKind → Bool
  | .statement _ => true
  | _ => false

/-- The name and parameters of a function block. -/
def function? : BlockKind → Option (String × List String)
  | .function name params => some (name, params)
  | _ => none

def declaration? : BlockKind → Option DataDecl
  | .data decl => some decl
  | _ => none

/-- The name that a block calls. -/
def operatorName? : BlockKind → Option String
  | .operator name _ => some name
  | _ => none

/-- Whether what is plugged into `slot` sees `name` rebound by this block. The
list of a generator sees the variables of the generators before it only. -/
def shadows (kind : BlockKind) (slot name : String) : Bool :=
  match kind with
  | .lambda bound | .localLet bound => slot == Slot.body && bound == name
  | .comprehension vars _ =>
      (vars.takeWhile fun v => Slot.generator v != slot).contains name
  | .cases _ arms =>
      arms.any fun arm => Slot.arm arm.constructor == slot && arm.binders.contains name
  | _ => false

def describe : BlockKind → String
  | .literal value _ => "literal " ++ value
  | .operator name _ => "operator " ++ name
  | .variable name => "variable " ++ name
  | .lambda param => "lambda " ++ param
  | .apply => "apply"
  | .localLet name => "let " ++ name
  | .list items => "list of " ++ toString items
  | .comprehension vars _ => "comprehension over " ++ ", ".intercalate vars
  | .cases typeName _ => "case on " ++ typeName
  | .function name _ => "function " ++ name
  | .data decl => "data " ++ decl.name
  | .statement name => "statement " ++ name

instance : ToString BlockKind := ⟨describe⟩

end BlockKind

end Plugboard
