import Plugboard.Workspace.Command

/-!
# A demonstration

A small program is put together, one link of it is refused, and the types of some
blocks are listed. The sweep that the edits have asked for is awaited at the end.
-/

namespace Plugboard.Demo

/-- A workspace that is worked on and the lines that have been written. -/
abbrev Session := ExceptT WorkspaceError (StateM (Workspace × List String))

def write (line : String) : Session Unit := modify fun (ws, lines) => (ws, lines ++ [line])

/-- Works on the workspace, and gives what comes of it even if it is an error. -/
def attempt {α : Type} (action : WorkspaceM α) : Session (Except WorkspaceError α) :=
  modifyGet fun (ws, lines) =>
    let (result, ws) := action.run ws
    (result, ws, lines)

/-- Works on the workspace, and stops at an error. -/
def act {α : Type} (action : WorkspaceM α) : Session α := do
  match ← attempt action with
  | .ok a => return a
  | .error e => throw e

/-- A label in a column of twelve characters, and a text behind it. -/
def labelled (label text : String) : String :=
  label ++ String.ofList (List.replicate (12 - label.length) ' ') ++ " " ++ text

/-- Writes the type of a block's output, and its warning if there is one. -/
def describe (label : String) (b : BlockId) : Session Unit := do
  match ← act (WorkspaceM.query (·.outputTy b)) with
  | some t => write (labelled label t.render)
  | none => write (labelled label "(no output)")
  match (← get).1.warning b with
  | some warning => write (labelled "" ("! " ++ warning))
  | none => pure ()

open WorkspaceM in
/-- `twice f x = f (f x)` -/
def addTwice : WorkspaceM BlockId := do
  let twice ← addBlock .main (.function "twice" ["f", "x"])
  let outer ← addBlock .main .apply
  let inner ← addBlock .main .apply
  let f₁ ← addBlock .main (.variable "f")
  let f₂ ← addBlock .main (.variable "f")
  let x ← addBlock .main (.variable "x")
  let _ ← plug outer twice Slot.result
  let _ ← plug f₁ outer Slot.func
  let _ ← plug inner outer Slot.argument
  let _ ← plug f₂ inner Slot.func
  let _ ← plug x inner Slot.argument
  return twice

open WorkspaceM in
/-- `twice _ 3`, and `negate` beside it. Gives the call and `negate`. -/
def addCall : WorkspaceM (BlockId × BlockId) := do
  let call ← addOperator "twice"
  let negate ← addOperator "negate"
  let three ← addBlock .main (.literal "3" .number)
  let _ ← plug three call (Slot.arg 1)
  return (call, negate)

open WorkspaceM in
/-- `1 + _`, and `True` beside it. Gives the sum and `True`. -/
def addSum : WorkspaceM (BlockId × BlockId) := do
  let sum ← addOperator "+"
  let truth ← addBlock .main (.literal "True" .bool)
  let one ← addBlock .main (.literal "1" .number)
  let _ ← plug one sum (Slot.arg 0)
  return (sum, truth)

/-- Waits for the sweep that is planned, if one is. -/
def awaitSweep : Session Unit := do
  let (ws, _) ← get
  if ws.sweep.isPending then
    let _ ← act (WorkspaceM.perform (.wait ws.sweep.delay))
    match ← act (WorkspaceM.poll (ws.clock + ws.sweep.delay)) with
    | some census =>
        write ("type variables: " ++ toString census.live ++ " live, " ++ toString census.free ++
          " free")
    | none => pure ()

def session : Session Unit := do
  let twice ← act addTwice
  let (call, negate) ← act addCall
  let (sum, truth) ← act addSum
  match ← attempt (WorkspaceM.plug truth sum (Slot.arg 1)) with
  | .ok _ => pure ()
  | .error e => write ("refused: " ++ e.message)
  let _ ← act WorkspaceM.infer
  describe "negate" negate
  describe "twice _ 3" call
  describe "1 + _" sum
  match ← act (WorkspaceM.query (·.typeParam twice "f")) with
  | some t => write (labelled "twice f" t.render)
  | none => pure ()
  awaitSweep

/-- The lines that the demonstration writes, and the error it stops at, if any. -/
def run (settings : Settings) : List String × Option WorkspaceError :=
  match session.run (Workspace.ofSettings settings, []) with
  | (.ok _, _, lines) => (lines, none)
  | (.error e, _, lines) => (lines, some e)

end Plugboard.Demo
