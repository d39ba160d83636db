/-!
# Configuration values

The values of a configuration document. Floats and dates are kept as written. A
table remembers how it came about, which decides whether it may still grow.
-/

namespace Plugboard.Toml

/-- How a table was defined. -/
inductive Origin where
  /-- By a header of its own, or as the document itself. -/
  | header
  /-- As a part of the header of a table further down. -/
  | implied
  /-- As a part of a dotted key. -/
  | dotted
  /-- Between braces, which defines it completely. -/
  | braces
  deriving DecidableEq

inductive Value where
  | string (text : String)
  | integer (n : Int)
  | float (written : String)
  | boolean (b : Bool)
  | dateTime (written : String)
  | array (items : List Value)
  | table (origin : Origin) (entries : List (String × Value))
  /-- An array of tables, the one defined last in front. -/
  | tables (elements : List (List (String × Value)))
  deriving Inhabited

/-- The entries of a table in order of definition. -/
abbrev Entries := List (String × Value)

end Plugboard.Toml
