import Plugboard.Toml.Value

/-!
# Defining tables

A header defines the table of that name once; it may come after the headers of
tables inside it. A dotted key defines the tables on its way and may come back to
them, but not to tables that a header or braces have defined. Walking along a
header through an array of tables leads to its last element.
-/

namespace Plugboard.Toml

namespace Entries

/-- Puts `value` in place of the value of `key`. -/
def replace (es : Entries) (key : String) (value : Value) : Entries :=
  es.map fun (k, v) => if k = key then (k, value) else (k, v)

/-- Changes the table at the end of a path by `f`, which is also told how that
table was defined. A table that is missing on the way is defined as `via`, which
is `implied` along a header and `dotted` along a dotted key. -/
def update (via : Origin) (f : Origin → Entries → Option Entries) (origin : Origin) :
    List String → Entries → Option Entries
  | [], es => f origin es
  | key :: path, es =>
      match es.lookup key with
      | none => do
          let inner ← update via f via path []
          return es ++ [(key, .table via inner)]
      | some (.table o inner) =>
          if o = .braces ∨ (via = .dotted ∧ o = .header) then none
          else (update via f o path inner).map fun inner => es.replace key (.table o inner)
      | some (.tables (last :: earlier)) =>
          (update via f .header path last).map fun last =>
            es.replace key (.tables (last :: earlier))
      | some _ => none

/-- Defines a key that is not defined yet. With a dotted key, the table that
receives the value has to be one that a dotted key defined. -/
def define (es : Entries) (path : List String) (key : String) (value : Value) : Option Entries :=
  update .dotted (fun origin es =>
    if ! path.isEmpty && origin != .dotted then none
    else if (es.lookup key).isSome then none
    else some (es ++ [(key, value)])) .header path es

/-- Opens the table of a header. -/
def openTable (es : Entries) (path : List String) (key : String) : Option Entries :=
  update .implied (fun _ es =>
    match es.lookup key with
    | none => some (es ++ [(key, .table .header [])])
    | some (.table .implied inner) => some (es.replace key (.table .header inner))
    | some _ => none) .header path es

/-- Opens a new element of the array of tables of a header. -/
def openElement (es : Entries) (path : List String) (key : String) : Option Entries :=
  update .implied (fun _ es =>
    match es.lookup key with
    | none => some (es ++ [(key, .tables [[]])])
    | some (.tables elements) => some (es.replace key (.tables ([] :: elements)))
    | some _ => none) .header path es

/-- Defines a key in the table that the header `table` has opened. -/
def defineIn (es : Entries) (table path : List String) (key : String) (value : Value) :
    Option Entries :=
  update .implied (fun _ es => es.define path key value) .header table es

end Entries

end Plugboard.Toml
