import Plugboard.Graph.Basic

/-!
# Walking a graph

A walk follows plugged sockets and never enters a block twice, so its depth is
bounded by the number of blocks.
-/

namespace Plugboard.Graph

/-- A depth that no walk exceeds: one more than there are blocks. -/
def depth (g : Graph) : Nat := g.blocks.size + 1

/-- Follows parents until there is none. `seen` holds the blocks left behind. -/
def climb (g : Graph) : Nat → BlockSet → BlockId → Except Fault BlockId
  | 0, _, b => .error (.cycle b)
  | fuel + 1, seen, b => do
      match ← g.parent b with
      | none => return b
      | some parent =>
          if seen.contains b then throw (.cycle b)
          climb g fuel (seen.insert b) parent

/-- The block at the top of the tree that a block is in. -/
def rootOf (g : Graph) (b : BlockId) : Except Fault BlockId := g.climb g.depth ∅ b

/-- Adds to `seen` all that `next` leads to from `b`. Of several blocks that follow
one block the last is entered first. -/
def explore (next : BlockId → Except Fault (List BlockId)) :
    Nat → BlockSet → BlockId → Except Fault BlockSet
  | 0, seen, _ => .ok seen
  | fuel + 1, seen, b =>
      if seen.contains b then .ok seen
      else do
        let following ← next b
        following.reverse.foldlM (explore next fuel) (seen.insert b)

/-- A block and everything below it. -/
def descendants (g : Graph) (b : BlockId) : Except Fault BlockSet :=
  explore g.children g.depth ∅ b

/-- The children of a block, then its parent. -/
def neighbours (g : Graph) (b : BlockId) : Except Fault (List BlockId) := do
  let children ← g.children b
  let parent ← g.parent b
  return children ++ parent.toList

/-- All blocks that are plugged together with a block, directly or not. -/
def component (g : Graph) (b : BlockId) : Except Fault BlockSet :=
  explore g.neighbours g.depth ∅ b

/-- Walks down from `b`. `path` leads to `b`, and below the blocks in `done` there
is no cycle. -/
def descend (g : Graph) : Nat → BlockSet → BlockSet → BlockId → Except Fault BlockSet
  | 0, _, _, b => .error (.cycle b)
  | fuel + 1, path, done, b =>
      if done.contains b then .ok done
      else if path.contains b then .error (.cycle b)
      else do
        let children ← g.children b
        let done ← children.foldlM (descend g fuel (path.insert b)) done
        return done.insert b

/-- Fails if a block below `root` is below itself. -/
def checkAcyclic (g : Graph) (root : BlockId) : Except Fault Unit := do
  let _ ← g.descend g.depth ∅ ∅ root

/-- Whether plugging `output` into `input` would put a block below itself. -/
def wouldCycle (g : Graph) (output input : SocketId) : Except Fault Bool := do
  let child := (← g.socket output).block
  let parent := (← g.socket input).block
  return (← g.descendants child).contains parent

end Plugboard.Graph
