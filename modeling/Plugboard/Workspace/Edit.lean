import Plugboard.Workspace.Plug

/-!
# Changing blocks

A function, a list or a comprehension may get or lose sockets. What is plugged into
a socket that stays remains plugged; what is plugged into one that goes is left at
the top. When a function gains or loses a parameter, so do all its calls. After the
change the types around the changed blocks are made anew and everything is inferred.
-/

namespace Plugboard

namespace Graph

/-- The blocks plugged into a block's inputs from where `name` is not rebound. -/
def childrenSeeing (g : Graph) (b : BlockId) (name : String) : Except Fault (List BlockId) := do
  let block ← g.block b
  let plugged ← block.inputs.mapM fun s => do
    let socket ← g.socket s
    if socket.slot?.any (block.kind.shadows · name) then return none
    else g.pluggedBlock s
  return plugged.filterMap id

/-- The variable blocks from `b` down, to a depth of `fuel`, that refer to what `name`
stands for at `b`. -/
def usesWithin (g : Graph) (name : String) : Nat → BlockId → Except Fault (List BlockId)
  | 0, b => .error (.cycle b)
  | fuel + 1, b => do
      let block ← g.block b
      let here := if block.kind = .variable name then [b] else []
      let below ← (← g.childrenSeeing b name).reverse.mapM (usesWithin g name fuel)
      return here ++ below.flatten

def usesOf (g : Graph) (b : BlockId) (name : String) : Except Fault (List BlockId) :=
  g.usesWithin name g.depth b

/-- The blocks that call a name. -/
def callersOf (g : Graph) (name : String) : List BlockId :=
  g.blockIds.filter fun b => (g.blocks[b]?.bind (·.kind.operatorName?)) == some name

end Graph

namespace BlockKind

/-- The same block with a number of arguments that is derived from the old one. -/
def mapArity (f : Nat → Nat) : BlockKind → BlockKind
  | .operator name arity => .operator name (f arity)
  | kind => kind

/-- An edit of a comprehension's variables and guards. -/
def editComprehension (f : List String → Nat → Except String (List String × Nat)) :
    BlockKind → Except String BlockKind
  | .comprehension vars guards => do
      let (vars, guards) ← f vars guards
      return .comprehension vars guards
  | _ => .error "not a list comprehension"

def addGenerator (name : String) : BlockKind → Except String BlockKind :=
  editComprehension fun vars guards =>
    if vars.contains name then .error ("generator `" ++ name ++ "` already exists")
    else .ok (vars ++ [name], guards)

def removeGenerator (name : String) : BlockKind → Except String BlockKind :=
  editComprehension fun vars guards =>
    if vars.contains name then .ok (vars.erase name, guards)
    else .error ("no generator `" ++ name ++ "`")

def addGuard : BlockKind → Except String BlockKind :=
  editComprehension fun vars guards => .ok (vars, guards + 1)

/-- Drops the last guard. -/
def removeGuard : BlockKind → Except String BlockKind :=
  editComprehension fun vars guards =>
    match guards with
    | 0 => .error "no guard to remove"
    | guards + 1 => .ok (vars, guards)

def setItems (items : Nat) : BlockKind → Except String BlockKind
  | .list _ => .ok (.list items)
  | _ => .error "not a list"

end BlockKind

namespace WorkspaceM

/-- Changes the kind of a block without touching its sockets. -/
def setKind (b : BlockId) (f : BlockKind → BlockKind) : WorkspaceM Unit :=
  onMain (GraphM.updateBlock b fun block => { block with kind := f block.kind })

/-- Makes the types around changed blocks anew, and around what they have shed, and
infers the whole workspace. -/
def finishEdit (touched : List BlockId) : WorkspaceM Report := do
  let members ← componentsOf touched
  let detached ← reset members
  let shed := (← componentsOf detached) \ members
  if ! shed.isEmpty then
    let _ ← reset shed
  let report ← infer
  requestSweep
  return report

/-- Changes the kind of one block, where it admits the change. -/
def edit (b : BlockId) (f : BlockKind → Except String BlockKind) : WorkspaceM Report := do
  match f (← ask (·.block b)).kind with
  | .error reason => malformed b reason
  | .ok kind =>
      setKind b fun _ => kind
      finishEdit [b]

/-- The name and parameters of a function block. -/
def functionAt (b : BlockId) : WorkspaceM (String × List String) := do
  match (← ask (·.block b)).kind.function? with
  | some f => return f
  | none => malformed b "not a function definition"

/-- Renames a parameter, where the body refers to it as well. -/
def renameParameter (b : BlockId) (old new : String) : WorkspaceM Report := do
  let (name, params) ← functionAt b
  if params.contains new then malformed b ("parameter `" ++ new ++ "` already exists")
  let uses ← ask (·.usesOf b old)
  if ! params.contains old then malformed b ("no parameter `" ++ old ++ "`")
  setKind b fun _ => .function name (params.replace old new)
  uses.forM fun use => setKind use fun _ => .variable new
  finishEdit [b]

/-- Appends a parameter; every call gets an argument. -/
def addParameter (b : BlockId) (param : String) : WorkspaceM Report := do
  let (name, params) ← functionAt b
  if params.contains param then malformed b ("parameter `" ++ param ++ "` already exists")
  setKind b fun _ => .function name (params ++ [param])
  let callers := (← get).main.callersOf name
  callers.forM fun caller => setKind caller (·.mapArity (· + 1))
  finishEdit (b :: callers)

/-- Plugs an output, if there is one, into an argument of a call. -/
def plugArgument (caller : BlockId) (index : Nat) : Option SocketId → WorkspaceM Unit
  | none => return
  | some output => do
      let input ← ask (·.inputNamed caller (Slot.arg index))
      onMain (GraphM.link output input)

/-- Takes an argument away from a call, whose arguments sit in `inputs`. Later ones
move up. Gives the block that was plugged in there. -/
def removeArgument (caller : BlockId) (inputs : List SocketId) (index : Nat) :
    WorkspaceM (Option BlockId) := do
  let plugged ← inputs.mapM fun input => onMain (GraphM.unlink input)
  let removed ← match plugged[index]?.join with
    | none => pure none
    | some output => some <$> (·.block) <$> ask (·.socket output)
  setKind caller (·.mapArity (· - 1))
  let _ ← renew caller
  (plugged.eraseIdx index).zipIdx.forM fun (output, i) => plugArgument caller i output
  return removed

/-- Removes a parameter with the argument for it in every call. -/
def removeParameter (b : BlockId) (param : String) : WorkspaceM Report := do
  let (name, params) ← functionAt b
  if ! params.contains param then malformed b ("no parameter `" ++ param ++ "`")
  let calls ← ((← get).main.callersOf name).mapM fun caller => do
    let inputs ← (List.range params.length).mapM fun i => ask (·.inputNamed caller (Slot.arg i))
    return (caller, inputs)
  setKind b fun _ => .function name (params.erase param)
  let touched ← calls.mapM fun (caller, inputs) => do
    let removed ← removeArgument caller inputs (params.idxOf param)
    return removed.toList ++ [caller]
  finishEdit (b :: touched.flatten)

end WorkspaceM

end Plugboard
