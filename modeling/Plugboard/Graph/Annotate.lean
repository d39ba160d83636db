import Plugboard.Graph.Edit
import Plugboard.Unify

/-!
# Keeping inferred types

The type inferred for a part of a program is kept on its block: on the output, on
an unplugged input, or, for a function, on its parameters and its result. The fresh
variables of a run are renamed to those that are kept already wherever the two
agree, so that a run over an unchanged program leaves its types as they were.
-/

namespace Plugboard

namespace Subst

/-- Makes two types equal as well, if that can be done. -/
def reconcile (s : Subst) (a b : Ty) : Subst :=
  match unify (s.apply a) (s.apply b) with
  | .ok u => u.compose s
  | .error _ => s

end Subst

/-- Where a type is kept. -/
inductive Place where
  | socket (id : SocketId)
  | param (block : BlockId) (name : String)
  deriving DecidableEq

namespace Graph

/-- Where the type inferred for a tag belongs, piece by piece. -/
def places (g : Graph) (tag : Tag) (t : Ty) : Except Fault (List (Place × Ty)) :=
  match tag with
  | .socket s => .ok (if g.sockets.contains s then [(.socket s, t)] else [])
  | .block b => do
      let block ← g.block b
      match block.output, block.kind.function? with
      | some output, _ => return [(.socket output, t)]
      | none, some (_, params) =>
          let (args, rest) := t.uncurry params.length
          let result ← g.inputNamed b Slot.result
          return params.zipWith (fun name arg => (.param b name, arg)) args ++
            [(.socket result, rest)]
      | none, none => return []

/-- The type that is kept at a place. -/
def placeTy (g : Graph) : Place → Except Fault (Option Ty)
  | .socket s => g.socketTy s
  | .param b name => return (← g.block b).params[name]?

def placeBlock (g : Graph) : Place → Except Fault BlockId
  | .socket s => (g.socket s).map (·.block)
  | .param b _ => .ok b

/-- All blocks that are plugged together with one of `blocks`. -/
def components (g : Graph) (blocks : List BlockId) : Except Fault BlockSet :=
  blocks.foldlM (fun members b => do
    if members.contains b then return members
    else return members ∪ (← g.component b)) ∅

/-- The inputs of `blocks` that are plugged to an output in `placed`, with the type
of that output. Of several types for one output the last counts. -/
def followers (g : Graph) (placed : List (Place × Ty)) (blocks : BlockSet) : List (Place × Ty) :=
  let outputs : Std.ExtTreeMap SocketId Ty := .ofList (placed.filterMap fun
    | (.socket s, t) => some (s, t)
    | (.param _ _, _) => none)
  (g.linksWithin blocks).filterMap fun (output, input) =>
    outputs[output]?.map fun t => (.socket input, t)

/-- Brings new types into agreement with the kept ones, place by place. Where the two
cannot agree the kept type is given up. -/
def agreement (g : Graph) (placed : List (Place × Ty)) : Except Fault Subst :=
  placed.foldlM (fun s (place, t) => do
    match ← g.placeTy place with
    | none => return s
    | some kept => return s.reconcile t kept) .empty

end Graph

namespace GraphM

def setPlace (place : Place) (t : Ty) : GraphM Unit :=
  match place with
  | .socket s => setTy s (some t)
  | .param b name => updateBlock b fun block =>
      { block with params := block.params.insert name t }

/-- Keeps inferred types on their blocks. Gives the blocks that may have changed. -/
def annotate (types : Std.ExtTreeMap Tag Ty) : GraphM BlockSet := do
  let placed ← types.toList.mapM fun (tag, t) => ask (·.places tag t)
  let blocks ← placed.flatten.mapM fun (place, _) => ask (·.placeBlock place)
  let members ← ask (·.components blocks)
  let placed := placed.flatten ++ (← get).followers placed.flatten members
  let s ← ask (·.agreement placed)
  modify (·.applyTo s members)
  placed.forM fun (place, t) => setPlace place (s.apply t)
  return members

end GraphM

end Plugboard
