import Plugboard.Graph.Walk
import Plugboard.Prelude
import Plugboard.Term

/-!
# Lowering blocks to terms

A block stands for a term that is put together from the terms of its inputs. An
input with nothing plugged in is a hole: a variable named after its socket. The
nodes that stand for a block or a hole carry its tag.
-/

namespace Plugboard

/-- Slots that are read in a row: listed ones, or a number of numbered ones. -/
inductive SlotRun where
  | listed (slots : List String)
  | numbered (slot : Nat → String) (count : Nat)

namespace SlotRun

variable {ε α : Type}

def slots : SlotRun → List String
  | .listed slots => slots
  | .numbered slot count => (List.range count).map slot

/-- Reads `count` numbered slots from `start` on. What comes after a slot that cannot
be read is never made up, so that a count may be far beyond the slots there are. -/
def readFrom (read : String → Except ε α) (slot : Nat → String) :
    Nat → Nat → Except ε (List α)
  | _, 0 => .ok []
  | start, count + 1 => do
      let first ← read (slot start)
      let rest ← readFrom read slot (start + 1) count
      return first :: rest

def read (f : String → Except ε α) : SlotRun → Except ε (List α)
  | .listed slots => slots.mapM f
  | .numbered slot count => readFrom f slot 0 count

theorem readFrom_eq_mapM (f : String → Except ε α) (slot : Nat → String) (start count : Nat) :
    readFrom f slot start count = ((List.range' start count).map slot).mapM f := by
  induction count generalizing start with
  | zero => rfl
  | succ count ih =>
      rw [readFrom, List.range'_succ, List.map_cons, List.mapM_cons]
      simp only [ih]

theorem read_eq_mapM (f : String → Except ε α) (run : SlotRun) :
    run.read f = run.slots.mapM f := by
  cases run with
  | listed slots => rfl
  | numbered slot count => rw [read, slots, readFrom_eq_mapM, List.range_eq_range']

end SlotRun

namespace BlockKind

/-- The slots whose terms make up a block's term, in order. Some blocks stand for
no term. -/
def operands? : BlockKind → Option (List SlotRun)
  | .literal _ _ | .variable _ => some []
  | .operator _ arity => some [.numbered Slot.arg arity]
  | .lambda _ => some [.listed [Slot.body]]
  | .apply => some [.listed [Slot.func, Slot.argument]]
  | .localLet _ => some [.listed [Slot.value, Slot.body]]
  | .list items => some [.numbered Slot.item items]
  | .comprehension vars guards =>
      some [.listed (vars.map Slot.generator), .numbered Slot.guard guards, .listed [Slot.yielded]]
  | .cases _ arms =>
      some [.listed (Slot.scrutinee :: arms.map fun arm => Slot.arm arm.constructor)]
  | .function _ _ => some [.listed [Slot.result]]
  | .data _ | .statement _ => none

/-- `func a₁ ... aₙ` with every application tagged, so that a type error anywhere
along it is blamed on the block. -/
def call (tag : Tag) (func : Term) (args : List Term) : Term :=
  args.foldl (fun func arg => .app func arg (some tag)) func

/-- A call of one of the names that terms are built from. -/
def callName (tag : Tag) (name : String) (args : List Term) : Term :=
  call tag (.var name none) args

/-- `[a, b]` as `: a (: b [])`. -/
def listTerm (tag : Tag) (items : List Term) : Term :=
  items.foldr (fun item rest => callName tag Prelude.consName [item, rest])
    (.var Prelude.nilName (some tag))

/-- `[e | x <- xs, y <- ys, g]` as `bind xs (\x -> bind ys (\y -> guard g (yield e)))`. -/
def comprehensionTerm (tag : Tag) (generators : List (String × Term)) (guards : List Term)
    (body : Term) : Term :=
  let guarded := guards.foldr (fun guard rest => callName tag Prelude.guardName [guard, rest])
    (callName tag Prelude.yieldName [body])
  generators.foldr (fun (name, source) rest =>
    callName tag Prelude.bindName [source, .lam name rest none]) guarded

/-- The term of a block, given the terms of its operands. -/
def assemble (tag : Tag) : BlockKind → List Term → Term
  | .literal _ ty, _ => .lit ty (some tag)
  | .operator name _, [] => .var name (some tag)
  | .operator name _, args => callName tag name args
  | .variable name, _ => .var name (some tag)
  | .lambda param, [body] => .lam param body (some tag)
  | .apply, func :: args => call tag func args
  | .localLet name, [bound, body] => .letIn name bound body (some tag)
  | .list _, items => listTerm tag items
  | .comprehension vars guards, parts =>
      let lists := parts.take vars.length
      let tests := (parts.drop vars.length).take guards
      comprehensionTerm tag (vars.zip lists) tests (parts.getLastD default)
  | .cases typeName arms, scrutinee :: bodies =>
      callName tag (caseName typeName)
        (scrutinee :: arms.zipWith (fun arm body => Term.lamAll arm.binders body) bodies)
  | .function _ [], [body] => body
  | .function _ params, [body] => (Term.lamAll params body).tagged tag
  | _, _ => default

end BlockKind

/-- The name of the variable that stands for a hole. -/
def holeName (s : SocketId) : String := "%" ++ toString s

/-- A term and the holes in it, in the order in which they were reached. -/
structure Lowered where
  term : Term
  holes : List SocketId
  deriving DecidableEq

namespace Lowered

/-- The term abstracted over its holes, the first outermost. -/
def toSection (l : Lowered) : Term := .lamAll (l.holes.map holeName) l.term

end Lowered

namespace Graph

/-- The term of what is plugged into a slot, or the hole that is there. -/
def lowerSlot (g : Graph) (lowerChild : BlockId → Except Fault Lowered) (b : BlockId)
    (slot : String) : Except Fault Lowered := do
  let s ← g.inputNamed b slot
  match ← g.pluggedBlock s with
  | some child => lowerChild child
  | none => return ⟨.var (holeName s) (some (.socket s)), [s]⟩

/-- The term of a block, down to a depth of `fuel`. -/
def lowerBlock (g : Graph) : Nat → BlockId → Except Fault Lowered
  | 0, b => .error (.cycle b)
  | fuel + 1, b => do
      let block ← g.block b
      match block.kind.operands? with
      | none => throw (.notAnExpression b)
      | some runs =>
          let parts ← runs.mapM fun run => run.read (g.lowerSlot (lowerBlock g fuel) b)
          let parts := parts.flatten
          return ⟨block.kind.assemble (.block b) (parts.map (·.term)), parts.flatMap (·.holes)⟩

/-- The term of the tree below `root`, which must not be cyclic. -/
def lower (g : Graph) (root : BlockId) : Except Fault Lowered := do
  g.checkAcyclic root
  g.lowerBlock g.depth root

end Graph

end Plugboard
