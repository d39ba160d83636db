import Plugboard.Debounce
import Plugboard.Graph.Edit
import Plugboard.Inference
import Plugboard.Settings
import Plugboard.Unify

/-!
# Workspaces

A workspace holds a program on its main canvas, a palette of blocks on a second
one, and the pool from which the type variables of both are taken. It notes which
blocks have to be drawn anew and when the pool is to be swept. Times are in
milliseconds; the clock moves only when it is told to.

An operation that fails part of the way keeps what it has done so far.
-/

namespace Plugboard

inductive Canvas where
  | main
  | flyout
  deriving DecidableEq

structure Workspace where
  settings : Settings
  main : Graph
  flyout : Graph
  pool : VarPool
  sweep : Debounce
  clock : Nat
  /-- The blocks of the main canvas to draw anew. -/
  mainRenders : BlockSet
  /-- The blocks of the palette to draw anew. -/
  flyoutRenders : BlockSet
  deriving DecidableEq

inductive WorkspaceError where
  | incompatible (cause : UnifyError)
  | alreadyPlugged (socket : SocketId)
  | sameDirection (a b : SocketId)
  | notPlugged (parent child : BlockId)
  | unknownOperator (name : String)
  | unknownDataType (name : String)
  | unknownStatement (name : String)
  | structural (cause : Fault)
  deriving DecidableEq

namespace WorkspaceError

def message : WorkspaceError → String
  | .incompatible cause => "attempt to connect incompatible types: " ++ cause.message
  | .alreadyPlugged socket => s!"port {socket} is already connected"
  | .sameDirection a b => s!"ports {a} and {b} must be one output and one input"
  | .notPlugged parent child => s!"blocks {parent} and {child} are not connected"
  | .unknownOperator name => s!"unknown operator `{name}`"
  | .unknownDataType name => s!"unknown data type `{name}`"
  | .unknownStatement name => s!"unknown statement `{name}`"
  | .structural cause => cause.message

end WorkspaceError

/-- Actions on a workspace. -/
abbrev WorkspaceM := ExceptT WorkspaceError (StateM Workspace)

namespace Workspace

def ofSettings (settings : Settings) : Workspace where
  settings
  main := .empty
  flyout := .empty
  pool := .withColour settings.fallbackColour
  sweep := .ofDelay settings.debounceMillis
  clock := 0
  mainRenders := ∅
  flyoutRenders := ∅

instance : Inhabited Workspace := ⟨ofSettings default⟩

def graph (ws : Workspace) : Canvas → Graph
  | .main => ws.main
  | .flyout => ws.flyout

def setGraph (ws : Workspace) (canvas : Canvas) (g : Graph) : Workspace :=
  match canvas with
  | .main => { ws with main := g }
  | .flyout => { ws with flyout := g }

/-- Notes that blocks have to be drawn anew. -/
def requestRender (ws : Workspace) (canvas : Canvas) (blocks : BlockSet) : Workspace :=
  match canvas with
  | .main => { ws with mainRenders := ws.mainRenders ∪ blocks }
  | .flyout => { ws with flyoutRenders := ws.flyoutRenders ∪ blocks }

/-- Plans a sweep of the pool, in place of any that is planned. -/
def requestSweep (ws : Workspace) : Workspace :=
  { ws with sweep := ws.sweep.schedule ws.clock }

/-- Sweeps the pool: what occurs on neither canvas becomes unused. -/
def collect (ws : Workspace) : Workspace :=
  { ws with
    sweep := ws.sweep.cancel
    pool := ws.pool.collect (ws.main.types ++ ws.flyout.types) }

/-- Sweeps the pool if a sweep is due at `now`, and tells whether it was. -/
def pollSweep (ws : Workspace) (now : Nat) : Bool × Workspace :=
  if ws.sweep.isDue now then (true, ws.collect) else (false, ws)

/-- The type of a block's output. -/
def outputTy (ws : Workspace) (b : BlockId) : Except Fault (Option Ty) := do
  match (← ws.main.block b).output with
  | none => return none
  | some s => ws.main.socketTy s

/-- The type of a block's input. -/
def inputTy (ws : Workspace) (b : BlockId) (slot : String) : Except Fault (Option Ty) := do
  ws.main.socketTy (← ws.main.inputNamed b slot)

def typeParam (ws : Workspace) (b : BlockId) (name : String) : Except Fault (Option Ty) := do
  return (← ws.main.block b).params[name]?

def warning (ws : Workspace) (b : BlockId) : Option String :=
  ws.main.blocks[b]?.bind (·.warning)

end Workspace

namespace WorkspaceM

/-- Runs an action on a canvas. -/
def onGraph {α : Type} (canvas : Canvas) (action : GraphM α) : WorkspaceM α := do
  let ws ← get
  let (result, g) := action.run (ws.graph canvas)
  set (ws.setGraph canvas g)
  match result with
  | .ok a => return a
  | .error e => throw (.structural e)

def onMain {α : Type} (action : GraphM α) : WorkspaceM α := onGraph .main action

/-- Runs a query on the workspace. -/
def query {α : Type} (f : Workspace → Except Fault α) : WorkspaceM α := do
  match f (← get) with
  | .ok a => return a
  | .error e => throw (.structural e)

/-- Runs a query on the main canvas. -/
def ask {α : Type} (f : Graph → Except Fault α) : WorkspaceM α := query fun ws => f ws.main

/-- Runs an action of the pool. -/
def onPool {α : Type} (f : VarPool → α × VarPool) : WorkspaceM α :=
  modifyGet fun ws => let (a, pool) := f ws.pool; (a, { ws with pool })

def freshTy : WorkspaceM Ty := onPool VarPool.allocateTy

def instantiate (scheme : Scheme) : WorkspaceM Ty := onPool scheme.instantiate

def requestRender (canvas : Canvas) (blocks : BlockSet) : WorkspaceM Unit :=
  modify (·.requestRender canvas blocks)

def requestSweep : WorkspaceM Unit := modify (·.requestSweep)

/-- Reports that an edit does not fit the block it is made on. -/
def malformed {α : Type} (b : BlockId) (reason : String) : WorkspaceM α :=
  throw (.structural (.malformedEdit b reason))

end WorkspaceM

end Plugboard
