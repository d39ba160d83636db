import Plugboard.Graph.Basic

/-!
# Call graphs

Functions that reach each other through calls form a group. Groups are listed with
callees first: the depth-first order in which functions are finished puts every
group after all that it calls, once a group is given the place of its last member.
-/

namespace Plugboard

/-- The functions that each function calls. -/
structure CallGraph where
  calls : Std.ExtTreeMap BlockId BlockSet
  deriving DecidableEq

namespace CallGraph

/-- The functions that have an entry, in order. -/
def functions (g : CallGraph) : List BlockId := g.calls.keys

def callees (g : CallGraph) (f : BlockId) : BlockSet := g.calls[f]?.getD ∅

/-- One step along the calls of every function in `fs`. -/
def step (g : CallGraph) (fs : BlockSet) : BlockSet :=
  fs ∪ .ofList (fs.toList.flatMap fun f => (g.callees f).toList)

/-- What `fs` reach through at most `n` calls. -/
def reach (g : CallGraph) : Nat → BlockSet → BlockSet
  | 0, fs => fs
  | n + 1, fs => reach g n (g.step fs)

/-- Everything that `f` reaches through calls, and `f` itself. -/
def reachable (g : CallGraph) (f : BlockId) : BlockSet := g.reach g.calls.size (.ofList [f])

/-- The functions that `f` reaches and that reach `f`. -/
def group (g : CallGraph) (f : BlockId) : BlockSet :=
  (g.reachable f).filter fun other => (g.reachable other).contains f

/-- Functions that have been entered, and those that are finished in the order in
which they were. -/
structure Progress where
  entered : BlockSet
  finished : List BlockId

/-- Enters a function: its callees are finished first, then the function. -/
def enter (g : CallGraph) : Nat → Progress → BlockId → Progress
  | 0, progress, _ => progress
  | fuel + 1, progress, f =>
      if progress.entered.contains f then progress
      else
        let below := (g.callees f).toList.foldl (enter g fuel)
          { progress with entered := progress.entered.insert f }
        { below with finished := below.finished ++ [f] }

/-- The functions in the order in which they are finished. -/
def finishOrder (g : CallGraph) : List BlockId :=
  (g.functions.foldl (g.enter (g.calls.size + 1)) ⟨∅, []⟩).finished

/-- The groups of the listed functions, each at the place of its last member. -/
def groupsAlong (g : CallGraph) : List BlockId → List (List BlockId)
  | [] => []
  | f :: later =>
      let members := g.group f
      if later.any members.contains then groupsAlong g later
      else members.toList :: groupsAlong g later

/-- All groups, callees first; the members of a group are in order. -/
def groups (g : CallGraph) : List (List BlockId) := g.groupsAlong g.finishOrder

end CallGraph

end Plugboard
