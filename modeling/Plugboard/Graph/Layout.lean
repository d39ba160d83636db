import Plugboard.Env
import Plugboard.Graph.Basic

/-!
# Layouts of blocks

The sockets and type parameters that the kinds of blocks start with. What a kind
leaves open is a fresh variable; variables are taken from the pool in the order in
which the layout is described.
-/

namespace Plugboard

/-- Allocations from the pool. -/
abbrev PoolM := StateM VarPool

namespace Layout

def fresh : PoolM Ty := modifyGet VarPool.allocateTy

def instantiate (scheme : Scheme) : PoolM Ty := modifyGet scheme.instantiate

/-- One fresh variable for each name. -/
def freshParams (names : List String) : PoolM (List (String × Ty)) :=
  names.mapM fun name => return (name, ← fresh)

/-- Types in the argument slots, in order. -/
def arguments (types : List Ty) : List (String × Ty) :=
  types.zipIdx.map fun (t, i) => (Slot.arg i, t)

def literal (ty : Ty) : Layout := ⟨some ty, [], ∅⟩

/-- A call with `arity` arguments of something of type `t`. A type with fewer
arguments tells nothing about the result. -/
def ofTy (t : Ty) (arity : Nat) : PoolM Layout := do
  let (args, result) := t.uncurry arity
  if args.length < arity then
    let more ← (List.replicate (arity - args.length) fresh).mapM id
    return ⟨some (← fresh), arguments (args ++ more), ∅⟩
  else return ⟨some result, arguments args, ∅⟩

/-- A call of a name with a known or unknown scheme. -/
def operator (scheme? : Option Scheme) (arity : Nat) : PoolM Layout := do
  let t ← match scheme? with
    | some scheme => instantiate scheme
    | none => fresh
  ofTy t arity

/-- A variable, of which nothing is known. -/
def use : PoolM Layout := return ⟨some (← fresh), [], ∅⟩

def lambda : PoolM Layout := do
  let param ← fresh
  let body ← fresh
  return ⟨some (.fn param body), [(Slot.body, body)], .ofList [("param", param)]⟩

def apply : PoolM Layout := do
  let arg ← fresh
  let result ← fresh
  return ⟨some result, [(Slot.func, .fn arg result), (Slot.argument, arg)], ∅⟩

def localLet : PoolM Layout := do
  let value ← fresh
  let body ← fresh
  return ⟨some body, [(Slot.value, value), (Slot.body, body)], .ofList [("value", value)]⟩

def list (items : Nat) : PoolM Layout := do
  let element ← fresh
  return ⟨some (.list element), (List.range items).map fun i => (Slot.item i, element),
    .ofList [("element", element)]⟩

def comprehension (vars : List String) (guards : Nat) : PoolM Layout := do
  let elements ← freshParams vars
  let element ← fresh
  let lists := elements.map fun (name, t) => (Slot.generator name, Ty.list t)
  let tests := (List.range guards).map fun i => (Slot.guard i, Ty.bool)
  return ⟨some (.list element), lists ++ tests ++ [(Slot.yielded, element)], .ofList elements⟩

/-- A case over a declared type, or over a type that is not declared. -/
def cases (decl? : Option DataDecl) (arms : List Arm) : PoolM Layout := do
  let scrutinee ← match decl? with
    | some decl => instantiate (.closed decl.self)
    | none => fresh
  let result ← fresh
  return ⟨some result,
    (Slot.scrutinee, scrutinee) :: arms.map fun arm => (Slot.arm arm.constructor, result), ∅⟩

def function (params : List String) : PoolM Layout := do
  let types ← freshParams params
  return ⟨none, [(Slot.result, ← fresh)], .ofList types⟩

def data : Layout := ⟨none, [], ∅⟩

/-- A statement with slots of the given types, each instantiated by itself. -/
def statement (slots : List Ty) : PoolM Layout := do
  let types ← slots.mapM fun slot => instantiate (.closed slot)
  return ⟨none, arguments types, ∅⟩

end Layout

end Plugboard
