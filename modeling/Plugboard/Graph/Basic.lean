import Plugboard.Block.Kind
import Plugboard.Fault
import Plugboard.Subst

/-!
# Block graphs

Blocks carry typed sockets: at most one output, and inputs that go by slot names.
Two sockets that are plugged together know each other as peers. Blocks and sockets
are found by their ids; an id is never given out again after its owner is gone.
-/

namespace Plugboard

inductive Role where
  | output
  | input (slot : String)
  deriving DecidableEq

structure Socket where
  block : BlockId
  role : Role
  ty : Option Ty
  peer : Option SocketId
  deriving DecidableEq

namespace Socket

def isOutput (socket : Socket) : Bool := socket.role == .output

def slot? (socket : Socket) : Option String :=
  match socket.role with
  | .output => none
  | .input slot => some slot

end Socket

structure Block where
  kind : BlockKind
  output : Option SocketId
  inputs : List SocketId
  /-- Named type parameters, such as the element type of a list. -/
  params : Std.ExtTreeMap String Ty
  warning : Option String
  deriving DecidableEq

/-- The sockets and type parameters that a block is to have. -/
structure Layout where
  output : Option Ty
  inputs : List (String × Ty)
  params : Std.ExtTreeMap String Ty
  deriving DecidableEq

/-- A set of blocks in order of their ids. -/
abbrev BlockSet := Std.ExtTreeSet BlockId

structure Graph where
  blocks : Std.ExtTreeMap BlockId Block
  sockets : Std.ExtTreeMap SocketId Socket
  nextBlock : Nat
  nextSocket : Nat
  deriving DecidableEq

namespace Graph

def empty : Graph := ⟨∅, ∅, 0, 0⟩

instance : EmptyCollection Graph := ⟨empty⟩
instance : Inhabited Graph := ⟨empty⟩

def contains (g : Graph) (b : BlockId) : Bool := g.blocks.contains b

def block (g : Graph) (b : BlockId) : Except Fault Block :=
  match g.blocks[b]? with
  | some block => .ok block
  | none => .error (.unknownBlock b)

def socket (g : Graph) (s : SocketId) : Except Fault Socket :=
  match g.sockets[s]? with
  | some socket => .ok socket
  | none => .error (.unknownSocket s)

def blockIds (g : Graph) : List BlockId := g.blocks.keys

def blockSet (g : Graph) : BlockSet := .ofList g.blockIds

def socketTy (g : Graph) (s : SocketId) : Except Fault (Option Ty) :=
  (g.socket s).map (·.ty)

/-- The first listed input of a block that goes by `slot`. -/
def inputNamed (g : Graph) (b : BlockId) (slot : String) : Except Fault SocketId := do
  let block ← g.block b
  match block.inputs.find? fun s => (g.sockets[s]?.bind Socket.slot?) == some slot with
  | some s => return s
  | none => throw (.malformedEdit b s!"no input named `{slot}`")

/-- The block at the other end of a socket. -/
def pluggedBlock (g : Graph) (s : SocketId) : Except Fault (Option BlockId) := do
  match (← g.socket s).peer with
  | none => return none
  | some peer => return some (← g.socket peer).block

/-- The blocks plugged into a block's inputs, in the order of the inputs. -/
def children (g : Graph) (b : BlockId) : Except Fault (List BlockId) := do
  let plugged ← (← g.block b).inputs.mapM g.pluggedBlock
  return plugged.filterMap id

/-- The block into which a block's output is plugged. -/
def parent (g : Graph) (b : BlockId) : Except Fault (Option BlockId) := do
  match (← g.block b).output with
  | none => return none
  | some output => g.pluggedBlock output

/-- Whether a block is plugged into nothing. -/
def isTop (g : Graph) (b : BlockId) : Bool :=
  match g.parent b with
  | .ok none => true
  | _ => false

def topBlocks (g : Graph) : List BlockId := g.blockIds.filter g.isTop

/-- The types on sockets, then those of type parameters. -/
def types (g : Graph) : List Ty :=
  g.sockets.values.filterMap (·.ty) ++ g.blocks.values.flatMap fun block => block.params.values

/-- The plugged pairs of an output and an input, over the inputs of `blocks`. -/
def linksWithin (g : Graph) (blocks : BlockSet) : List (SocketId × SocketId) :=
  g.sockets.toList.filterMap fun (s, socket) =>
    if ! socket.isOutput && blocks.contains socket.block then
      socket.peer.map fun peer => (peer, s)
    else none

end Graph

end Plugboard
