import Plugboard.Subst
import Plugboard.VarPool

/-!
# Type environments

An environment gives schemes to names. Generalizing quantifies what is not free
in the environment, and an instance of a scheme puts fresh variables in place
of the quantified ones.
-/

namespace Plugboard

structure Env where
  schemes : Std.ExtTreeMap String Scheme
  deriving DecidableEq

namespace Env

def empty : Env := ⟨∅⟩

instance : EmptyCollection Env := ⟨empty⟩
instance : Inhabited Env := ⟨empty⟩

def lookup (env : Env) (name : String) : Option Scheme := env.schemes[name]?

def contains (env : Env) (name : String) : Bool := env.schemes.contains name

def size (env : Env) : Nat := env.schemes.size

def isEmpty (env : Env) : Bool := env.schemes.isEmpty

/-- The bindings in order of their names. -/
def toList (env : Env) : List (String × Scheme) := env.schemes.toList

def insert (env : Env) (name : String) (scheme : Scheme) : Env :=
  ⟨env.schemes.insert name scheme⟩

/-- Adds bindings from left to right; a later one replaces an earlier one. -/
def insertMany (env : Env) (bindings : List (String × Scheme)) : Env :=
  bindings.foldl (fun env (name, scheme) => env.insert name scheme) env

def ofList (bindings : List (String × Scheme)) : Env := empty.insertMany bindings

def erase (env : Env) (name : String) : Env := ⟨env.schemes.erase name⟩

def freeVars (env : Env) : NameSet :=
  env.toList.foldl (fun names (_, scheme) => names ∪ scheme.freeVars) ∅

def apply (s : Subst) (env : Env) : Env :=
  ⟨env.schemes.map fun _ scheme => s.applyScheme scheme⟩

/-- Quantifies the variables of `t` that are not free in `env`, in order. -/
def generalize (env : Env) (t : Ty) : Scheme :=
  ⟨(t.freeVars.filter (! env.freeVars.contains ·)).toList, t⟩

end Env

namespace Scheme

/-- Allocates a variable for each listed name in turn. -/
def freshNames : List String → VarPool → List (String × Ty) × VarPool
  | [], pool => ([], pool)
  | v :: vs, pool =>
      let (fresh, pool) := pool.allocate
      let (pairs, pool) := freshNames vs pool
      ((v, .var fresh) :: pairs, pool)

/-- Replaces the quantified names by fresh variables. A name that is listed more
than once gets the variable of its last place. -/
def instantiate (scheme : Scheme) (pool : VarPool) : Ty × VarPool :=
  let (pairs, pool) := freshNames scheme.vars pool
  ((Subst.ofList pairs).apply scheme.body, pool)

end Scheme

end Plugboard
