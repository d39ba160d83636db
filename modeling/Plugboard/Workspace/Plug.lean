import Plugboard.Workspace.Typing

/-!
# Plugging and unplugging

Two sockets are plugged together if their types can be made equal, and then they are
equal everywhere: a type variable may occur on any block of either canvas. Unplugging
forgets what the link has made equal: the types on both sides are made anew from the
blocks and the remaining links, and inferred.
-/

namespace Plugboard

namespace Graph

/-- What makes the types at both ends of each link equal, link by link. A link whose
ends cannot be made equal is passed over. -/
def linkAgreement (g : Graph) (links : List (SocketId × SocketId)) : Except Fault Subst :=
  links.foldlM (fun s (output, input) => do
    let outputTy ← g.socketTy output
    let inputTy ← g.socketTy input
    match outputTy, inputTy with
    | some a, some b => return s.reconcile a b
    | _, _ => return s) .empty

end Graph

namespace Workspace

/-- Applies a substitution to a canvas. -/
def substitute (ws : Workspace) (canvas : Canvas) (s : Subst) : Workspace :=
  let g := ws.graph canvas
  (ws.setGraph canvas (g.applyTo s g.blockSet)).requestRender canvas (g.changedBy s g.blockSet)

end Workspace

namespace WorkspaceM

/-- Makes the sockets of a block anew. Gives the blocks that were unplugged. -/
def renew (b : BlockId) : WorkspaceM (List BlockId) := do
  let block ← ask (·.block b)
  let layout ← layoutFor block.kind
  onMain (GraphM.replaceSockets b layout)

/-- Makes the types on blocks anew from their kinds and the links among them. Gives
the blocks that were unplugged. -/
def reset (members : BlockSet) : WorkspaceM (List BlockId) := do
  let detached ← members.toList.mapM renew
  let s ← ask fun g => g.linkAgreement (g.linksWithin members)
  onMain (modify (·.applyTo s members))
  requestRender .main members
  return detached.flatten

/-- All blocks that are plugged together with one of `blocks`, as far as these exist. -/
def componentsOf (blocks : List BlockId) : WorkspaceM BlockSet :=
  ask fun g => g.components (blocks.filter g.contains)

/-- Makes the types around `blocks` anew, and infers them. -/
def refresh (blocks : List BlockId) : WorkspaceM Unit := do
  let members ← componentsOf blocks
  let detached ← reset members
  let remaining := (members.toList ++ detached).filter (← get).main.contains
  let roots ← remaining.mapM fun b => ask (·.rootOf b)
  let _ ← inferRoots (Std.ExtTreeSet.ofList roots).toList

/-- Tells the output from the input. -/
def orient (a b : SocketId) : WorkspaceM (SocketId × SocketId) := do
  let first ← ask (·.socket a)
  let second ← ask (·.socket b)
  match first.isOutput, second.isOutput with
  | true, false => return (a, b)
  | false, true => return (b, a)
  | _, _ => throw (.sameDirection a b)

def requireUnplugged (s : SocketId) : WorkspaceM Unit := do
  if (← ask (·.socket s)).peer.isSome then throw (.alreadyPlugged s)

/-- The type on a socket, or a fresh one. -/
def tyOrFresh (s : SocketId) : WorkspaceM Ty := do
  match ← ask (·.socketTy s) with
  | some t => return t
  | none => freshTy

/-- Plugs an output and an input together. Gives what had to be substituted. -/
def connect (a b : SocketId) : WorkspaceM Subst := do
  let (output, input) ← orient a b
  requireUnplugged output
  requireUnplugged input
  let parent := (← ask (·.socket input)).block
  if ← ask (·.wouldCycle output input) then throw (.structural (.cycle parent))
  let outputTy ← tyOrFresh output
  let inputTy ← tyOrFresh input
  match unify outputTy inputTy with
  | .error e => throw (.incompatible e)
  | .ok s =>
      onMain do
        GraphM.link output input
        GraphM.setTy output (some outputTy)
        GraphM.setTy input (some inputTy)
      let child := (← ask (·.socket output)).block
      modify fun ws => (ws.substitute .main s).substitute .flyout s
      requestRender .main (.ofList [child, parent])
      requestSweep
      return s

/-- Plugs a block into a slot of another. -/
def plug (child parent : BlockId) (slot : String) : WorkspaceM Subst := do
  match (← ask (·.block child)).output with
  | none => throw (.structural (.notAnExpression child))
  | some output =>
      let input ← ask (·.inputNamed parent slot)
      connect output input

/-- The output by which a block is plugged into `parent`. -/
def pluggedOutput (parent child : BlockId) : WorkspaceM SocketId := do
  match (← ask (·.block child)).output with
  | none => throw (.notPlugged parent child)
  | some output =>
      match ← ask (·.pluggedBlock output) with
      | some b => if b = parent then return output else throw (.notPlugged parent child)
      | none => throw (.notPlugged parent child)

/-- Unplugs a block from another. -/
def unplug (parent child : BlockId) : WorkspaceM Unit := do
  let output ← pluggedOutput parent child
  let _ ← onMain (GraphM.unlink output)
  refresh [parent, child]
  requestSweep

/-- Removes a block from the main canvas. -/
def removeBlock (b : BlockId) : WorkspaceM Unit := do
  let neighbours ← ask (·.neighbours b)
  let _ ← onMain (GraphM.removeBlock b)
  refresh neighbours
  requestSweep

end WorkspaceM

end Plugboard
