import Plugboard.CallGraph
import Plugboard.FunctionGroup
import Plugboard.Graph.Annotate
import Plugboard.Workspace.Layout

/-!
# Inferring a workspace

Declarations give constructors and eliminators. Functions are inferred in groups,
callees first, so that each group sees what it calls in generalized form. Then
every other block at the top of a tree is inferred by itself. Inferred types are
kept on the blocks; a type error becomes a warning on the block it is blamed on.
-/

namespace Plugboard

/-- Outcome of an inference: how many trees were inferred, and all warnings. -/
structure Report where
  roots : Nat
  warnings : List (BlockId × String)
  deriving DecidableEq

namespace Workspace

/-- The built-in names, then constructors and eliminators in order of declaration. -/
def declaredEnv (ws : Workspace) : Env :=
  ws.declarations.foldl (fun env d =>
    (env.insertMany (d.constructors.map fun c => (c.name, d.constructorScheme c))).insert
      (caseName d.name) d.caseScheme) Prelude.env

/-- The first function block of each name. -/
def functionTable (ws : Workspace) : Std.ExtTreeMap String BlockId :=
  ws.functions.foldl (fun table (b, name, _) => table.insertIfNew name b) ∅

/-- The functions that are called below a block. -/
def calleesBelow (ws : Workspace) (b : BlockId) : Except Fault BlockSet := do
  let below ← ws.main.descendants b
  return .ofList (below.toList.filterMap fun inner => do
    let block ← ws.main.blocks[inner]?
    let name ← block.kind.operatorName?
    ws.functionTable[name]?)

def callGraph (ws : Workspace) : Except Fault CallGraph := do
  let calls ← ws.functionTable.values.mapM fun b => return (b, ← ws.calleesBelow b)
  return ⟨.ofList calls⟩

/-- A function block with its lowered body. -/
def member? (ws : Workspace) (b : BlockId) : Option Member := do
  let block ← ws.main.blocks[b]?
  let (name, _) ← block.kind.function?
  return ⟨b, name, ws.main.lower b⟩

def warnings (ws : Workspace) : List (BlockId × String) :=
  ws.main.blocks.toList.filterMap fun (b, block) => block.warning.map fun text => (b, text)

/-- The block that an error found below `root` is blamed on. -/
def blamed (ws : Workspace) (root : BlockId) (e : TypeError) : BlockId :=
  match e.tag with
  | some (.block b) => if ws.main.contains b then b else root
  | some (.socket s) => (ws.main.sockets[s]?.map (·.block)).getD root
  | none => root

/-- Puts a warning on the block that an error is blamed on. -/
def warn (ws : Workspace) (root : BlockId) (e : TypeError) : Workspace :=
  let b := ws.blamed root e
  let text := ws.settings.warning ++ ": " ++ e.message
  let main := ws.main.modifyBlock b fun block => { block with warning := some text }
  { ws with main }.requestRender .main (.ofList [b])

end Workspace

namespace WorkspaceM

/-- Runs an inference on the pool, and gives its notes as well. -/
def runInference {α : Type} (action : StateM InferState α) : WorkspaceM (α × List (Tag × Ty)) :=
  modifyGet fun ws =>
    let (a, s) := action.run (InferM.ofPool ws.pool)
    ((a, s.notes), { ws with pool := s.pool })

def warn (root : BlockId) (e : TypeError) : WorkspaceM Unit := modify (·.warn root e)

/-- Keeps inferred types on their blocks. -/
def annotate (types : Std.ExtTreeMap Tag Ty) : WorkspaceM Unit := do
  requestRender .main (← onMain (GraphM.annotate types))

/-- Removes the warnings in the trees of `roots` and on functions. -/
def clearWarnings (roots : List BlockId) : WorkspaceM Unit := do
  let trees ← roots.mapM fun root => ask (·.component root)
  let bodies ← (← get).functions.mapM fun (b, _) => ask (·.descendants b)
  let stale : BlockSet := (trees ++ bodies).foldl (· ∪ ·) ∅
  stale.toList.forM fun b => onMain (GraphM.setWarning b none)

/-- Infers a group of functions and binds them. -/
def inferGroup (env : Env) (group : List BlockId) : WorkspaceM Env := do
  let members := group.filterMap (← get).member?
  let (typing, _) ← runInference (FunctionGroup.infer env members)
  annotate typing.types
  typing.errors.forM fun (b, e) => warn b e
  return env.insertMany typing.schemes

/-- The environment that the program is inferred in. -/
def globalEnv : WorkspaceM Env := do
  let calls ← query (·.callGraph)
  calls.groups.foldlM inferGroup (← get).declaredEnv

/-- Infers the tree below `root`. Where a type is expected, unplugged inputs are left
open; where none is, the tree stands for a function of them. -/
def inferTree (env : Env) (root : BlockId) (expected : Option Ty) : WorkspaceM Unit := do
  match (← get).main.lower root with
  | .error e => warn root (.structural e)
  | .ok l =>
      let inference := match expected with
        | some t => l.inferAs env root t .empty
        | none => l.inferSection env
      let (result, notes) ← runInference inference
      match result with
      | .ok s => annotate (InferM.resolve s notes)
      | .error e => warn root e

/-- Infers what is plugged into a slot of a statement. Gives how many trees that is. -/
def inferSlot (env : Env) (input : SocketId) : WorkspaceM Nat := do
  match ← ask (·.pluggedBlock input) with
  | none => return 0
  | some child =>
      inferTree env child (← ask (·.socketTy input))
      return 1

/-- The sum of what an action gives over a list. -/
def total {α : Type} (action : α → WorkspaceM Nat) (xs : List α) : WorkspaceM Nat :=
  xs.foldlM (fun sum x => return sum + (← action x)) 0

/-- Infers a block that is not a function. Gives how many trees that is. -/
def inferRoot (env : Env) (root : BlockId) : WorkspaceM Nat := do
  let block ← ask (·.block root)
  match block.kind with
  | .function _ _ | .data _ => return 0
  | .statement _ => total (inferSlot env) block.inputs
  | _ =>
      inferTree env root none
      return 1

/-- Infers all functions, then the trees of `roots`. -/
def inferRoots (roots : List BlockId) : WorkspaceM Report := do
  clearWarnings roots
  let env ← globalEnv
  let count ← total (inferRoot env) roots
  return ⟨count, (← get).warnings⟩

/-- Infers the whole main canvas. -/
def infer : WorkspaceM Report := do
  inferRoots (← get).main.topBlocks

end WorkspaceM

end Plugboard
