import Plugboard.Graph.Layout
import Plugboard.Prelude
import Plugboard.Workspace.Basic

/-!
# Blocks of a workspace

A call takes its types from the built-in, the constructor or the function of its
name, and a case from the declaration of its type. All of these are looked up on
the main canvas, whichever canvas the block is for.
-/

namespace Plugboard

namespace Workspace

/-- The data declarations in order of their blocks. -/
def declarations (ws : Workspace) : List DataDecl :=
  ws.main.blocks.values.filterMap (·.kind.declaration?)

/-- The first declaration of a type. -/
def declaration? (ws : Workspace) (name : String) : Option DataDecl :=
  ws.declarations.find? (·.name == name)

/-- The function blocks with their names and parameters. -/
def functions (ws : Workspace) : List (BlockId × String × List String) :=
  ws.main.blocks.toList.filterMap fun (b, block) => block.kind.function?.map fun f => (b, f)

/-- The first function block of a name, with its parameters. -/
def functionNamed? (ws : Workspace) (name : String) : Option (BlockId × List String) :=
  (ws.functions.find? (·.2.1 == name)).map fun (b, _, params) => (b, params)

/-- The scheme of a built-in operator, or else of a constructor. -/
def operatorScheme? (ws : Workspace) (name : String) : Option Scheme :=
  (Prelude.env.lookup name).or
    (ws.declarations.findSome? fun d => (d.constructor? name).map d.constructorScheme)

/-- The present type of a function: from those of its parameters to that of its
result, quantified over every variable. -/
def functionScheme? (ws : Workspace) (name : String) : Except Fault (Option Scheme) := do
  match ws.functionNamed? name with
  | none => return none
  | some (b, params) =>
      let block ← ws.main.block b
      match params.mapM (block.params[·]?) with
      | none => return none
      | some args =>
          let result ← ws.main.socketTy (← ws.main.inputNamed b Slot.result)
          return result.map fun result => .closed (.curried args result)

/-- The scheme of whatever a call of `name` calls. -/
def calleeScheme? (ws : Workspace) (name : String) : Except Fault (Option Scheme) :=
  match ws.operatorScheme? name with
  | some scheme => .ok (some scheme)
  | none => ws.functionScheme? name

/-- How many arguments a new call of `name` takes. -/
def calleeArity? (ws : Workspace) (name : String) : Option Nat :=
  match ws.operatorScheme? name with
  | some scheme => some scheme.body.arity
  | none => (ws.functionNamed? name).map (·.2.length)

end Workspace

namespace WorkspaceM

/-- The layout of a new block. A call of an unknown name is open everywhere. -/
def layoutFor : BlockKind → WorkspaceM Layout
  | .literal _ ty => return .literal ty
  | .operator name arity => do
      let scheme? ← query (·.calleeScheme? name)
      onPool (Layout.operator scheme? arity)
  | .variable _ => onPool Layout.use
  | .lambda _ => onPool Layout.lambda
  | .apply => onPool Layout.apply
  | .localLet _ => onPool Layout.localLet
  | .list items => onPool (Layout.list items)
  | .comprehension vars guards => onPool (Layout.comprehension vars guards)
  | .cases typeName arms => do
      let decl? := (← get).declaration? typeName
      onPool (Layout.cases decl? arms)
  | .function _ params => onPool (Layout.function params)
  | .data _ => return .data
  | .statement name =>
      match Prelude.statements[name]? with
      | some slots => onPool (Layout.statement slots)
      | none => throw (.unknownStatement name)

/-- Adds a block to a canvas. -/
def addBlock (canvas : Canvas) (kind : BlockKind) : WorkspaceM BlockId := do
  let layout ← layoutFor kind
  let b ← onGraph canvas (GraphM.act (·.addBlock kind layout))
  requestRender canvas (.ofList [b])
  return b

/-- Adds a call to the main canvas, with an input for every argument. -/
def addOperator (name : String) : WorkspaceM BlockId := do
  match (← get).calleeArity? name with
  | some arity => addBlock .main (.operator name arity)
  | none => throw (.unknownOperator name)

/-- Adds a case to the main canvas, with an arm for every constructor that binds
the fields under their declared names. -/
def addCase (typeName : String) : WorkspaceM BlockId := do
  match (← get).declaration? typeName with
  | some decl =>
      addBlock .main (.cases typeName
        (decl.constructors.map fun c => ⟨c.name, c.fields.map (·.1)⟩))
  | none => throw (.unknownDataType typeName)

end WorkspaceM

end Plugboard
