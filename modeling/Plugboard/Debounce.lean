/-!
# Debounced triggers

A request sets a deadline one delay ahead and replaces any earlier deadline.
The trigger fires once, when it is first asked at or after the deadline. Times
are counted in milliseconds from an arbitrary origin.
-/

namespace Plugboard

structure Debounce where
  delay : Nat
  deadline : Option Nat
  deriving DecidableEq

namespace Debounce

def ofDelay (delay : Nat) : Debounce := ⟨delay, none⟩

def schedule (d : Debounce) (now : Nat) : Debounce := { d with deadline := some (now + d.delay) }

def cancel (d : Debounce) : Debounce := { d with deadline := none }

def isPending (d : Debounce) : Bool := d.deadline.isSome

def isDue (d : Debounce) (now : Nat) : Bool := d.deadline.any (· ≤ now)

/-- Tells whether the trigger fires at `now`, in which case its deadline is cleared. -/
def takeDue (d : Debounce) (now : Nat) : Bool × Debounce :=
  if d.isDue now then (true, d.cancel) else (false, d)

end Debounce

end Plugboard
