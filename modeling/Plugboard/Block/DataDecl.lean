import Plugboard.Scheme

/-!
# Data declarations

A declared type with its parameters and constructors. Each constructor is a
function from its fields to the type. The eliminator takes a value of the type and
one function per constructor, all with the same result.
-/

namespace Plugboard

structure Constructor where
  name : String
  fields : List (String × Ty)
  deriving DecidableEq

namespace Constructor

def fieldTypes (c : Constructor) : List Ty := c.fields.map (·.2)

end Constructor

structure DataDecl where
  name : String
  params : List String
  constructors : List Constructor
  deriving DecidableEq

namespace DataDecl

/-- The declared type applied to its own parameters. -/
def self (d : DataDecl) : Ty := .con d.name (d.params.map .var)

def constructor? (d : DataDecl) (name : String) : Option Constructor :=
  d.constructors.find? (·.name == name)

/-- `field₁ -> ... -> fieldₙ -> name<params>`, quantified over the parameters. -/
def constructorScheme (d : DataDecl) (c : Constructor) : Scheme :=
  ⟨d.params, .curried c.fieldTypes d.self⟩

/-- The variable of the eliminator's result. -/
def resultVar : String := "%r"

/-- The type of the function that handles one constructor. -/
def armType (c : Constructor) : Ty := .curried c.fieldTypes (.var resultVar)

/-- `name<params> -> (fields of c₁ -> r) -> ... -> (fields of cₙ -> r) -> r`. -/
def caseScheme (d : DataDecl) : Scheme :=
  ⟨d.params ++ [resultVar], .curried (d.self :: d.constructors.map armType) (.var resultVar)⟩

end DataDecl

/-- The name under which the eliminator of a type is bound. -/
def caseName (typeName : String) : String := "case#" ++ typeName

end Plugboard
