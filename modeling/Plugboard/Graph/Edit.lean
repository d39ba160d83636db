import Plugboard.Graph.Walk

/-!
# Editing a graph

An edit that fails part of the way keeps what it has done so far.
-/

namespace Plugboard

/-- Actions on a graph that may fail without being undone. -/
abbrev GraphM := ExceptT Fault (StateM Graph)

namespace Graph

/-- Adds an unplugged socket. -/
def addSocket (g : Graph) (b : BlockId) (role : Role) (ty : Ty) : SocketId × Graph :=
  let s : SocketId := ⟨g.nextSocket⟩
  (s, { g with
    sockets := g.sockets.insert s ⟨b, role, some ty, none⟩
    nextSocket := g.nextSocket + 1 })

/-- Adds unplugged inputs in order. -/
def addInputs (g : Graph) (b : BlockId) : List (String × Ty) → List SocketId × Graph
  | [] => ([], g)
  | (slot, ty) :: rest =>
      let (s, g) := g.addSocket b (.input slot) ty
      let (ss, g) := addInputs g b rest
      (s :: ss, g)

/-- Adds a block with unplugged sockets, the output first. -/
def addBlock (g : Graph) (kind : BlockKind) (layout : Layout) : BlockId × Graph :=
  let b : BlockId := ⟨g.nextBlock⟩
  let (output, g) := match layout.output with
    | none => (none, g)
    | some ty => let (s, g) := g.addSocket b .output ty; (some s, g)
  let (inputs, g) := g.addInputs b layout.inputs
  (b, { g with
    blocks := g.blocks.insert b ⟨kind, output, inputs, layout.params, none⟩
    nextBlock := g.nextBlock + 1 })

def modifySocket (g : Graph) (s : SocketId) (f : Socket → Socket) : Graph :=
  { g with sockets := g.sockets.modify s f }

def modifyBlock (g : Graph) (b : BlockId) (f : Block → Block) : Graph :=
  { g with blocks := g.blocks.modify b f }

def eraseSocket (g : Graph) (s : SocketId) : Graph :=
  { g with sockets := g.sockets.erase s }

def setPeer (g : Graph) (s : SocketId) (peer : Option SocketId) : Graph :=
  g.modifySocket s fun socket => { socket with peer }

end Graph

namespace GraphM

/-- Runs a query. -/
def ask {α : Type} (f : Graph → Except Fault α) : GraphM α := do
  match f (← get) with
  | .ok a => return a
  | .error e => throw e

/-- Runs an action that cannot fail. -/
def act {α : Type} (f : Graph → α × Graph) : GraphM α := modifyGet f

/-- Changes a socket, which has to exist. -/
def updateSocket (s : SocketId) (f : Socket → Socket) : GraphM Unit := do
  let _ ← ask (·.socket s)
  modify (·.modifySocket s f)

/-- Changes a block, which has to exist. -/
def updateBlock (b : BlockId) (f : Block → Block) : GraphM Unit := do
  let _ ← ask (·.block b)
  modify (·.modifyBlock b f)

def setTy (s : SocketId) (ty : Option Ty) : GraphM Unit :=
  updateSocket s fun socket => { socket with ty }

def setWarning (b : BlockId) (warning : Option String) : GraphM Unit :=
  updateBlock b fun block => { block with warning }

/-- Makes two sockets each other's peers. Former peers are not told. -/
def link (a b : SocketId) : GraphM Unit := do
  let _ ← ask (·.socket b)
  updateSocket a fun socket => { socket with peer := some b }
  updateSocket b fun socket => { socket with peer := some a }

/-- Unplugs a socket and the one it was plugged to, which is returned. -/
def unlink (s : SocketId) : GraphM (Option SocketId) := do
  let peer := (← ask (·.socket s)).peer
  modify (·.setPeer s none)
  if let some peer := peer then
    modify (·.setPeer peer none)
  return peer

/-- Unplugs a socket and removes it. Gives the socket it was plugged to. -/
def dropSocket (s : SocketId) : GraphM (Option SocketId) := do
  let peer ← unlink s
  modify (·.eraseSocket s)
  return peer

/-- Removes a block with its sockets, which are unplugged first. -/
def removeBlock (b : BlockId) : GraphM Block := do
  let block ← ask (·.block b)
  (block.output.toList ++ block.inputs).forM fun s => discard (dropSocket s)
  modify fun g => { g with blocks := g.blocks.erase b }
  return block

/-- The inputs in a list by slot; of several in one slot the last. -/
def inputsBySlot : List SocketId → GraphM (Std.ExtTreeMap String SocketId)
  | inputs => inputs.foldlM (fun bySlot s => do
      match (← ask (·.socket s)).slot? with
      | some slot => return bySlot.insert slot s
      | none => return bySlot) ∅

/-- Gives a block the inputs of a layout, using up `old` inputs of the same slots.
The inputs are returned, and the old ones that are left over. -/
def reuseInputs (b : BlockId) (old : Std.ExtTreeMap String SocketId) :
    List (String × Ty) → GraphM (List SocketId × Std.ExtTreeMap String SocketId)
  | [] => return ([], old)
  | (slot, ty) :: rest => do
      let s ← match old[slot]? with
        | some s =>
            setTy s (some ty)
            pure s
        | none => act (·.addSocket b (.input slot) ty)
      let (inputs, old) ← reuseInputs b (old.erase slot) rest
      return (s :: inputs, old)

/-- Unplugs and removes inputs. Gives the blocks that were plugged into them. -/
def dropInputs : List SocketId → GraphM (List BlockId)
  | [] => return []
  | s :: rest => do
      let detached ← match ← unlink s with
        | none => pure []
        | some peer => pure [(← ask (·.socket peer)).block]
      modify (·.eraseSocket s)
      return detached ++ (← dropInputs rest)

/-- Gives a block a new output type, or a new or no output. Gives the block itself
if it was plugged in somewhere and now has no output. -/
def replaceOutput (b : BlockId) (old : Option SocketId) (ty : Option Ty) :
    GraphM (Option SocketId × List BlockId) := do
  match old, ty with
  | some s, some ty =>
      setTy s (some ty)
      return (some s, [])
  | none, some ty => return (some (← act (·.addSocket b .output ty)), [])
  | some s, none =>
      let peer ← dropSocket s
      return (none, if peer.isSome then [b] else [])
  | none, none => return (none, [])

/-- Replaces a block's sockets. Inputs whose slot is kept keep their id and what is
plugged into them. The blocks that were unplugged are returned. -/
def replaceSockets (b : BlockId) (layout : Layout) : GraphM (List BlockId) := do
  let block ← ask (·.block b)
  let old ← inputsBySlot block.inputs
  let (inputs, leftOver) ← reuseInputs b old layout.inputs
  let detached ← dropInputs leftOver.values
  let (output, unplugged) ← replaceOutput b block.output layout.output
  updateBlock b fun block => { block with inputs, output, params := layout.params }
  return detached ++ unplugged

end GraphM

namespace Graph

/-- Applies a substitution to the sockets and type parameters of `blocks`. -/
def applyTo (g : Graph) (s : Subst) (blocks : BlockSet) : Graph :=
  { g with
    sockets := g.sockets.map fun _ socket =>
      if blocks.contains socket.block then { socket with ty := socket.ty.map s.apply } else socket
    blocks := g.blocks.map fun b block =>
      if blocks.contains b then { block with params := block.params.map fun _ t => s.apply t }
      else block }

/-- The blocks in `blocks` on which a substitution changes some type. -/
def changedBy (g : Graph) (s : Subst) (blocks : BlockSet) : BlockSet :=
  let sockets := g.sockets.values.filter fun socket =>
    blocks.contains socket.block && socket.ty.any fun t => s.apply t != t
  let params := g.blocks.toList.filter fun (b, block) =>
    blocks.contains b && block.params.values.any fun t => s.apply t != t
  .ofList (sockets.map (·.block) ++ params.map (·.1))

end Graph

end Plugboard
