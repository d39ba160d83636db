/-!
# Slots

The names of a block's inputs. Arguments, items and guards are numbered from zero;
generators are named after their variable and case arms after their constructor.
-/

namespace Plugboard.Slot

def body : String := "BODY"
def func : String := "FUNC"
def argument : String := "ARG"
def value : String := "VALUE"
def yielded : String := "DO"
def scrutinee : String := "SCRUTINEE"
def result : String := "RETURN"

def arg (index : Nat) : String := "ARG" ++ toString index

def item (index : Nat) : String := "ITEM" ++ toString index

def generator (name : String) : String := "VAR_" ++ name

def guard (index : Nat) : String := "GUARD" ++ toString index

def arm (constructor : String) : String := "ARM_" ++ constructor

end Plugboard.Slot
