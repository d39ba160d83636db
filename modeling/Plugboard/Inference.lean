import Plugboard.Env
import Plugboard.Fault
import Plugboard.Term
import Plugboard.Unify

/-!
# Type inference

Algorithm W over terms. Fresh variables come from a pool that outlives the run,
so that an instance shares no variable with anything else in circulation. The
types of tagged nodes are noted as the run goes along. They are relative to the
substitution of that moment and are resolved against the final one.
-/

namespace Plugboard

inductive TypeError where
  | unbound (name : String) (tag : Option Tag)
  | unification (cause : UnifyError) (tag : Option Tag)
  | structural (cause : Fault)
  deriving DecidableEq

namespace TypeError

def message : TypeError → String
  | .unbound name _ => s!"unbound variable: {name}"
  | .unification cause _ => cause.message
  | .structural cause => cause.message

/-- The part of the program that the error is reported on, if it is known. -/
def tag : TypeError → Option Tag
  | .unbound _ tag | .unification _ tag => tag
  | .structural cause => some cause.tag

end TypeError

/-- What inference keeps across runs: the pool, and the notes of tagged nodes
with the newest first. -/
structure InferState where
  pool : VarPool
  notes : List (Tag × Ty)
  deriving DecidableEq

/-- Inference fails without undoing its allocations and notes. -/
abbrev InferM := ExceptT TypeError (StateM InferState)

namespace InferM

def ofPool (pool : VarPool) : InferState := ⟨pool, []⟩

/-- Runs an action of the pool. -/
def onPool {α : Type} (f : VarPool → α × VarPool) : InferM α :=
  modifyGet fun s => let (a, pool) := f s.pool; (a, { s with pool })

def freshVar : InferM Ty := onPool VarPool.allocateTy

def instantiate (scheme : Scheme) : InferM Ty := onPool scheme.instantiate

def note (tag : Option Tag) (t : Ty) : InferM Unit :=
  match tag with
  | none => pure ()
  | some tag => modify fun s => { s with notes := (tag, t) :: s.notes }

/-- Unification, with the node to blame if it fails. -/
def unifyAt (tag : Option Tag) (a b : Ty) : InferM Subst :=
  match unify a b with
  | .ok s => pure s
  | .error cause => throw (.unification cause tag)

/-- Forgets all but the oldest `count` notes. -/
def keepNotes (count : Nat) : InferM Unit :=
  modify fun s => { s with notes := s.notes.drop (s.notes.length - count) }

/-- The noted types under `s`. Of several notes for one tag the newest holds,
which is the one of the outermost node. -/
def resolve (s : Subst) (notes : List (Tag × Ty)) : Std.ExtTreeMap Tag Ty :=
  .ofList (notes.reverse.map fun (tag, t) => (tag, s.apply t))

end InferM

open InferM

namespace Term

/-- The substitution and type of a term in an environment. A local definition is
generalized against the environment without its own name, so that each use of
it gets an instance of its own. -/
def infer (env : Env) : Term → InferM (Subst × Ty)
  | .var name tag => do
      match env.lookup name with
      | none => throw (.unbound name tag)
      | some scheme =>
          let t ← instantiate scheme
          note tag t
          return (.empty, t)
  | .lit t tag => do
      note tag t
      return (.empty, t)
  | .lam param body tag => do
      let paramTy ← freshVar
      let (s, bodyTy) ← body.infer (env.insert param (.mono paramTy))
      let t := Ty.fn (s.apply paramTy) bodyTy
      note tag t
      return (s, t)
  | .app func arg tag => do
      let (s₁, funcTy) ← func.infer env
      let (s₂, argTy) ← arg.infer (env.apply s₁)
      let resultTy ← freshVar
      let s₃ ← unifyAt tag (s₂.apply funcTy) (.fn argTy resultTy)
      let t := s₃.apply resultTy
      note tag t
      return (s₃.compose (s₂.compose s₁), t)
  | .letIn name bound body tag => do
      let (s₁, boundTy) ← bound.infer env
      let outer := (env.erase name).apply s₁
      let (s₂, bodyTy) ← body.infer (outer.insert name (outer.generalize boundTy))
      note tag bodyTy
      return (s₂.compose s₁, bodyTy)

/-- The type of a term inferred on its own, with the pool afterwards. -/
def typeIn (env : Env) (t : Term) (pool : VarPool) : Except TypeError Ty × VarPool :=
  let (result, s) := (t.infer env).run (InferM.ofPool pool)
  (result.map fun (s, t) => s.apply t, s.pool)

end Term

end Plugboard
