import Plugboard.Tag

/-!
# Structural faults

What can be wrong with a program as a structure, before any type is looked at.
-/

namespace Plugboard

inductive Fault where
  | cycle (block : BlockId)
  | unknownBlock (block : BlockId)
  | unknownSocket (socket : SocketId)
  | notAnExpression (block : BlockId)
  | malformedEdit (block : BlockId) (reason : String)
  deriving DecidableEq

namespace Fault

def message : Fault → String
  | .cycle block => s!"block {block} is part of a cycle"
  | .unknownBlock block => s!"unknown block {block}"
  | .unknownSocket socket => s!"unknown connection {socket}"
  | .notAnExpression block => s!"block {block} does not denote an expression"
  | .malformedEdit block reason => s!"malformed mutation on block {block}: {reason}"

/-- The block or socket that a fault is about. -/
def tag : Fault → Tag
  | .cycle block | .unknownBlock block | .notAnExpression block | .malformedEdit block _ =>
      .block block
  | .unknownSocket socket => .socket socket

end Fault

end Plugboard
