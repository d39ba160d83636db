import Plugboard.Graph.Lower
import Plugboard.Inference

/-!
# Inferring a group of functions

Functions that call each other are inferred together. Each is bound to a type
variable of its own while their bodies are inferred one after the other, and is
generalized when all are done. A function that fails is bound to `forall a. a`, so
that its callers can still be checked, and leaves no notes.
-/

namespace Plugboard

namespace InferM

/-- Binds every hole to a fresh variable. -/
def bindHoles (holes : List SocketId) : InferM (List (String × Scheme)) :=
  holes.mapM fun s => return (holeName s, .mono (← freshVar))

/-- Tells how an inference ends. One that fails leaves no notes. -/
def attempt {α : Type} (x : InferM α) : StateM InferState (Except TypeError α) := do
  let count := (← get).notes.length
  let result ← x.run
  match result with
  | .ok _ => return result
  | .error _ =>
      let _ ← (keepNotes count).run
      return result

end InferM

open InferM

namespace Lowered

/-- Infers the term of a block, with open holes, and makes its type the expected
one. `before` is what is known already. -/
def inferAs (env : Env) (block : BlockId) (expected : Ty) (before : Subst) (l : Lowered) :
    InferM Subst := do
  let holes ← bindHoles l.holes
  let (s, t) ← l.term.infer ((env.insertMany holes).apply before)
  let u ← unifyAt (some (.block block)) t (s.apply (before.apply expected))
  return u.compose (s.compose before)

/-- Infers the term of a block as a function of its holes. -/
def inferSection (env : Env) (l : Lowered) : InferM Subst := do
  let (s, _) ← l.toSection.infer env
  return s

end Lowered

/-- A function that is being inferred. -/
structure Member where
  block : BlockId
  name : String
  lowered : Except Fault Lowered

/-- What a group is found to be: what its members are bound to, what went wrong, and
the types of the tagged nodes. -/
structure GroupTyping where
  schemes : List (String × Scheme)
  errors : List (BlockId × TypeError)
  types : Std.ExtTreeMap Tag Ty

namespace FunctionGroup

def freshVar : StateM InferState Ty := modifyGet fun s =>
  let (t, pool) := s.pool.allocateTy
  (t, { s with pool })

/-- Infers the body of a member whose type is to be `self`. -/
def inferBody (env : Env) (m : Member) (self : Ty) (before : Subst) : InferM Subst :=
  match m.lowered with
  | .ok l => l.inferAs env m.block self before
  | .error e => throw (.structural e)

/-- Infers the bodies of the members in turn. Those that fail add nothing to what is
known. -/
def inferBodies (env : Env) :
    List (Member × Ty) → Subst → StateM InferState (Subst × List (Option TypeError))
  | [], s => return (s, [])
  | (m, self) :: rest, s => do
      match ← attempt (inferBody env m self s) with
      | .ok s =>
          let (s, errors) ← inferBodies env rest s
          return (s, none :: errors)
      | .error e =>
          let (s, errors) ← inferBodies env rest s
          return (s, some e :: errors)

/-- What a member is bound to when the group is done. -/
def bindingOf (env : Env) (s : Subst) (self : Ty) : Option TypeError → StateM InferState Scheme
  | none => return (env.apply s).generalize (s.apply self)
  | some _ => return .closed (← freshVar)

/-- Infers a group in an environment that binds what the group calls outside. -/
def infer (env : Env) (members : List Member) : StateM InferState GroupTyping := do
  let selves ← members.mapM fun _ => freshVar
  let names := members.map (·.name)
  let inner := env.insertMany (names.zip (selves.map .mono))
  let (s, errors) ← inferBodies inner (members.zip selves) .empty
  let types := InferM.resolve s (← get).notes
  let schemes ← (selves.zip errors).mapM fun (self, error) => bindingOf env s self error
  return {
    schemes := names.zip schemes
    errors := (members.zip errors).filterMap fun (m, error) => error.map fun e => (m.block, e)
    types }

end FunctionGroup

end Plugboard
