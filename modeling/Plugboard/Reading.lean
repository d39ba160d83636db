/-!
# Reading from the front of a list

A reader takes something off the front of a list and hands on the rest together
with the fact that it is shorter. A reader that calls itself on that rest ends.
-/

namespace Plugboard

/-- What is left of `l` after something has been read. -/
abbrev Shorter {α : Type} (l : List α) := { rest : List α // rest.length < l.length }

/-- What is left of `l` after something, or nothing, has been read. -/
abbrev NoLonger {α : Type} (l : List α) := { rest : List α // rest.length ≤ l.length }

variable {α : Type}

theorem length_dropWhile_le (p : α → Bool) (l : List α) : (l.dropWhile p).length ≤ l.length :=
  (List.dropWhile_sublist p).length_le

namespace Shorter

def tail (a : α) (l : List α) : Shorter (a :: l) := ⟨l, by simp⟩

def later {l : List α} (a : α) (rest : Shorter l) : Shorter (a :: l) :=
  ⟨rest.1, Nat.lt_succ_of_lt rest.2⟩

/-- What is left after reading twice in a row. -/
def trans {l : List α} (mid : Shorter l) (rest : Shorter mid.1) : Shorter l :=
  ⟨rest.1, Nat.lt_trans rest.2 mid.2⟩

def dropWhile {l : List α} (p : α → Bool) (rest : Shorter l) : Shorter l :=
  ⟨rest.1.dropWhile p, Nat.lt_of_le_of_lt (length_dropWhile_le p rest.1) rest.2⟩

end Shorter

namespace NoLonger

def same (l : List α) : NoLonger l := ⟨l, Nat.le_refl _⟩

def tail {a : α} {l : List α} (rest : NoLonger l) : Shorter (a :: l) :=
  ⟨rest.1, Nat.lt_succ_of_le rest.2⟩

/-- What is left after a part has been skipped and something has been read. -/
def trans {l : List α} (mid : NoLonger l) (rest : Shorter mid.1) : Shorter l :=
  ⟨rest.1, Nat.lt_of_lt_of_le rest.2 mid.2⟩

def dropWhile (p : α → Bool) (l : List α) : NoLonger l := ⟨l.dropWhile p, length_dropWhile_le p l⟩

end NoLonger

end Plugboard
