import Plugboard.Toml.Document
import Plugboard.VarPool

/-!
# Settings

What a user can set: the delay of collections in milliseconds, the colour of type
variables that are not from the pool's stock, and the text of warnings. A document
may leave any of them out and may define other keys.
-/

namespace Plugboard

structure Settings where
  debounceMillis : Nat
  fallbackColour : String
  warning : String
  deriving DecidableEq

namespace Settings

def default : Settings where
  debounceMillis := 500
  fallbackColour := VarPool.defaultColour
  warning := "this expression contains type errors"

instance : Inhabited Settings := ⟨default⟩

/-- A natural number under `key`, or `fallback` where the key is not defined. -/
def natEntry (entries : Toml.Entries) (key : String) (fallback : Nat) : Option Nat :=
  match entries.lookup key with
  | none => some fallback
  | some (.integer (.ofNat n)) => some n
  | some _ => none

/-- A text under `key`, or `fallback` where the key is not defined. -/
def textEntry (entries : Toml.Entries) (key : String) (fallback : String) : Option String :=
  match entries.lookup key with
  | none => some fallback
  | some (.string text) => some text
  | some _ => none

/-- The settings in a configuration document. -/
def parse (source : String) : Option Settings := do
  let entries ← Toml.parse source
  return {
    debounceMillis := ← natEntry entries "gc_debounce_ms" default.debounceMillis
    fallbackColour := ← textEntry entries "fallback_colour" default.fallbackColour
    warning := ← textEntry entries "warning" default.warning }

end Settings

end Plugboard
