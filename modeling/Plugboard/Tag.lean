import Std.Data.ExtTreeMap

/-!
# Names for blocks and sockets

Blocks and sockets are known by numbers that are never given out twice. A tag is
one or the other; in order, all block tags come before all socket tags.
-/

namespace Plugboard

structure BlockId where
  index : Nat
  deriving DecidableEq, Inhabited

structure SocketId where
  index : Nat
  deriving DecidableEq, Inhabited

/-- The part of a program that an expression stands for. -/
inductive Tag where
  | block (id : BlockId)
  | socket (id : SocketId)
  deriving DecidableEq

instance : ToString BlockId := ⟨fun id => s!"#{id.index}"⟩

instance : ToString SocketId := ⟨fun id => s!"c{id.index}"⟩

instance : Ord BlockId := ⟨fun a b => compare a.index b.index⟩

instance : Ord SocketId := ⟨fun a b => compare a.index b.index⟩

namespace Tag

/-- Compares by kind first and by number second. -/
def order : Tag → Tag → Ordering
  | .block a, .block b => compare a b
  | .block _, .socket _ => .lt
  | .socket _, .block _ => .gt
  | .socket a, .socket b => compare a b

instance : Ord Tag := ⟨order⟩

end Tag

instance : Std.TransOrd BlockId where
  eq_swap {_ _} := @Std.OrientedCmp.eq_swap Nat compare _ _ _
  isLE_trans {_ _ _} := @Std.TransCmp.isLE_trans Nat compare _ _ _ _

instance : Std.LawfulEqOrd BlockId where
  eq_of_compare {a b} h := by
    have : a.index = b.index := @Std.LawfulEqCmp.eq_of_compare Nat compare _ _ _ h
    cases a
    cases b
    exact congrArg _ this

instance : Std.TransOrd SocketId where
  eq_swap {_ _} := @Std.OrientedCmp.eq_swap Nat compare _ _ _
  isLE_trans {_ _ _} := @Std.TransCmp.isLE_trans Nat compare _ _ _ _

instance : Std.LawfulEqOrd SocketId where
  eq_of_compare {a b} h := by
    have : a.index = b.index := @Std.LawfulEqCmp.eq_of_compare Nat compare _ _ _ h
    cases a
    cases b
    exact congrArg _ this

instance : Std.TransOrd Tag where
  eq_swap {a b} := by
    cases a <;> cases b
    · exact @Std.OrientedCmp.eq_swap BlockId compare _ _ _
    · rfl
    · rfl
    · exact @Std.OrientedCmp.eq_swap SocketId compare _ _ _
  isLE_trans {a b c} hab hbc := by
    cases a <;> cases b <;> cases c <;> first
      | exact @Std.TransCmp.isLE_trans BlockId compare _ _ _ _ hab hbc
      | exact @Std.TransCmp.isLE_trans SocketId compare _ _ _ _ hab hbc
      | rfl
      | exact absurd hab Bool.false_ne_true
      | exact absurd hbc Bool.false_ne_true

instance : Std.LawfulEqOrd Tag where
  eq_of_compare {a b} h := by
    cases a <;> cases b
    · exact congrArg _ (@Std.LawfulEqCmp.eq_of_compare BlockId compare _ _ _ h)
    · cases h
    · cases h
    · exact congrArg _ (@Std.LawfulEqCmp.eq_of_compare SocketId compare _ _ _ h)

end Plugboard
