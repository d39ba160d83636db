import Plugboard.Demo

/-!
# The command line

Runs the demonstration, with the settings of a file if one is named.
-/

namespace Plugboard

/-- Writes the demonstration to the standard output, and tells the exit status. -/
def demonstrate (settings : Settings) : IO UInt32 := do
  let (lines, error) := Demo.run settings
  lines.forM fun line => IO.println line
  match error with
  | none => return 0
  | some e =>
      IO.eprintln ("Error: " ++ e.message)
      return 1

end Plugboard

open Plugboard

def main (args : List String) : IO UInt32 := do
  match args with
  | [] => demonstrate .default
  | path :: _ =>
      match Settings.parse (← IO.FS.readFile path) with
      | some settings => demonstrate settings
      | none =>
          IO.eprintln "Error: invalid configuration"
          return 1
