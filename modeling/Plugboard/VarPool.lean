import Plugboard.Ty.Basic
import Std.Data.String.ToNat

/-!
# The pool of type variables

Every type variable in circulation is a named, coloured entry of a pool, and an index finds the
entry of a name. A pool starts with 52 unused names, hands out the first unused one, and makes up
a numeral once all are in use. Names that come from elsewhere are adopted when they are first
marked. A collection leaves in use exactly what occurs in the types it is given; entries are
never dropped.
-/

namespace Plugboard

@[ext]
structure PoolEntry where
  name : String
  colour : String
  used : Bool
  deriving DecidableEq

@[ext]
structure VarPool where
  entries : List PoolEntry
  /-- The places of the entries by their names, the newest first. -/
  index : List (String × Nat)
  /-- Numerals below this one have been tried already. -/
  nextNumeral : Nat
  fallbackColour : String
  deriving DecidableEq

/-- Outcome of a collection: entries in use and entries not in use. -/
structure Census where
  live : Nat
  free : Nat
  deriving DecidableEq

namespace VarPool

def defaultColour : String := "RosyBrown"

def palette : List String :=
  ["Red", "Blue", "Green", "Cyan", "BlueViolet", "Brown", "Black", "Chartreuse", "Gold",
   "HotPink", "LightSkyBlue", "Orange", "Gray", "YellowGreen", "Maroon", "Purple", "Yellow",
   "Teal", "Aqua", "Olive", "Fuchsia", "Navy", "Lime", "Chocolate", "DarkSlateGray",
   "RosyBrown"]

def alphabet : List String :=
  ["A", "B", "C", "D", "E", "F", "G", "H", "I", "J", "K", "L", "M", "N", "O", "P", "Q", "R",
   "S", "T", "U", "V", "W", "X", "Y", "Z"]

/-- Puts a new entry at the end. -/
def register (pool : VarPool) (name colour : String) (used : Bool) : VarPool :=
  { pool with
    entries := pool.entries ++ [⟨name, colour, used⟩]
    index := (name, pool.entries.length) :: pool.index }

/-- The names and colours that every pool starts with: `A` to `Z` and `AA` to `AZ`, each letter
in its own colour. -/
def stock : List (String × String) :=
  alphabet.zip palette ++ (alphabet.map ("A" ++ ·)).zip palette

/-- The pool of the stocked names. -/
def withColour (fallback : String) : VarPool where
  entries := stock.map fun (name, colour) => ⟨name, colour, false⟩
  index := (stock.map Prod.fst).zipIdx.reverse
  nextNumeral := 0
  fallbackColour := fallback

def default : VarPool := withColour defaultColour

instance : Inhabited VarPool := ⟨default⟩

def names (pool : VarPool) : List String := pool.entries.map (·.name)

/-- The place that the index has for a name. -/
def place? (pool : VarPool) (name : String) : Option Nat := pool.index.lookup name

def find? (pool : VarPool) (name : String) : Option PoolEntry :=
  (pool.place? name).bind fun i => pool.entries[i]?

def isUsed (pool : VarPool) (name : String) : Bool :=
  (pool.find? name).any (·.used)

def colour? (pool : VarPool) (name : String) : Option String :=
  (pool.find? name).map (·.colour)

def usedCount (pool : VarPool) : Nat := pool.entries.countP (·.used)

def size (pool : VarPool) : Nat := pool.entries.length

/-- Marks the first unused entry and gives its name. -/
def takeUnused : List PoolEntry → Option (String × List PoolEntry)
  | [] => none
  | e :: es =>
      if e.used then (takeUnused es).map fun (name, es) => (name, e :: es)
      else some (e.name, { e with used := true } :: es)

/-- The indexed names that are numerals from `n` on. -/
def numeralsFrom (pool : VarPool) (n : Nat) : List String :=
  (pool.index.map Prod.fst).filter fun name => name.toNat?.any (n ≤ ·)

theorem mem_of_isSome_place? {pool : VarPool} {name : String} (h : (pool.place? name).isSome) :
    name ∈ pool.index.map Prod.fst := by
  obtain ⟨p, hp, hname⟩ := List.lookup_isSome_iff.1 h
  exact List.mem_map.2 ⟨p, hp, (eq_of_beq hname).symm⟩

/-- Each numeral that is taken leaves fewer to come, since no two numbers have the same one. -/
theorem length_numeralsFrom_lt {pool : VarPool} {n : Nat} (h : (pool.place? (toString n)).isSome) :
    (pool.numeralsFrom (n + 1)).length < (pool.numeralsFrom n).length := by
  have hlater : pool.numeralsFrom (n + 1) =
      (pool.numeralsFrom n).filter fun name => name.toNat?.any (n + 1 ≤ ·) := by
    rw [numeralsFrom, numeralsFrom, List.filter_filter]
    refine List.filter_congr fun name _ => ?_
    cases name.toNat? with
    | none => rfl
    | some m => simp; omega
  rw [hlater, List.length_filter_lt_length_iff_exists]
  refine ⟨toString n, List.mem_filter.2 ⟨mem_of_isSome_place? h, ?_⟩, ?_⟩ <;> simp

/-- The first numeral from `n` on that is no entry's name. -/
def freeNumeral (pool : VarPool) (n : Nat) : Nat :=
  if (pool.place? (toString n)).isSome then pool.freeNumeral (n + 1) else n
  termination_by (pool.numeralsFrom n).length
  decreasing_by exact length_numeralsFrom_lt ‹_›

/-- Hands out a name: the first unused entry, or else a new numeral. -/
def allocate (pool : VarPool) : String × VarPool :=
  match takeUnused pool.entries with
  | some (name, entries) => (name, { pool with entries })
  | none =>
      let n := pool.freeNumeral pool.nextNumeral
      let name := toString n
      (name, { pool.register name pool.fallbackColour true with nextNumeral := n + 1 })

/-- Hands out a name as a type variable. -/
def allocateTy (pool : VarPool) : Ty × VarPool :=
  let (name, pool) := pool.allocate
  (.var name, pool)

/-- Sets the flag of the entry called `name`. -/
def setUsed (pool : VarPool) (name : String) (used : Bool) : VarPool :=
  match pool.place? name with
  | some i => { pool with entries := pool.entries.modify i fun e => { e with used } }
  | none => pool

/-- Gives a name back, and tells whether it was in use. -/
def release (pool : VarPool) (name : String) : Bool × VarPool :=
  (pool.isUsed name, pool.setUsed name false)

/-- Marks a name as used, adopting it if the pool never issued it. -/
def reserve (pool : VarPool) (name : String) : VarPool :=
  if (pool.place? name).isSome then pool.setUsed name true
  else pool.register name pool.fallbackColour true

/-- Marks the variables of a type, in order of their names. -/
def reserveTy (pool : VarPool) (t : Ty) : VarPool :=
  t.freeVars.toList.foldl reserve pool

def releaseAll (pool : VarPool) : VarPool :=
  { pool with entries := pool.entries.map fun e => { e with used := false } }

def census (pool : VarPool) : Census :=
  ⟨pool.usedCount, pool.size - pool.usedCount⟩

/-- Leaves in use exactly the variables that occur in `roots`. -/
def collect (pool : VarPool) (roots : List Ty) : VarPool :=
  roots.foldl reserveTy pool.releaseAll

end VarPool

end Plugboard
