import Plugboard.Workspace.Edit

/-!
# Commands

All that can be done to a workspace, as data. Refused commands count as well: what
their users get to see are the workspaces that commands lead to from an empty one.
-/

namespace Plugboard

inductive Command where
  | add (canvas : Canvas) (kind : BlockKind)
  /-- Adds a call of a known name with all its arguments. -/
  | addOperator (name : String)
  /-- Adds a case with an arm for every constructor of a declared type. -/
  | addCase (typeName : String)
  | remove (block : BlockId)
  | connect (a b : SocketId)
  | plug (child parent : BlockId) (slot : String)
  | unplug (parent child : BlockId)
  | infer
  | renameParameter (function : BlockId) (old new : String)
  | addParameter (function : BlockId) (name : String)
  | removeParameter (function : BlockId) (name : String)
  | addGenerator (comprehension : BlockId) (name : String)
  | removeGenerator (comprehension : BlockId) (name : String)
  | addGuard (comprehension : BlockId)
  | removeGuard (comprehension : BlockId)
  | setItems (list : BlockId) (items : Nat)
  /-- Takes a type variable from the pool that is on no block. -/
  | allocate
  | collect
  | requestSweep
  /-- Sweeps the pool if a sweep is due at a time. -/
  | poll (now : Nat)
  /-- Lets time pass. -/
  | wait (millis : Nat)
  | takeRenders
  deriving DecidableEq

inductive Reply where
  | done
  | block (id : BlockId)
  | subst (s : Subst)
  | report (r : Report)
  | typeVar (name : String)
  /-- The outcome of a sweep, or that none was due. -/
  | swept (census : Option Census)
  | renders (blocks : List (Canvas × BlockId))
  deriving DecidableEq

namespace Workspace

/-- The blocks to draw anew, those of the main canvas first. -/
def renders (ws : Workspace) : List (Canvas × BlockId) :=
  ws.mainRenders.toList.map (.main, ·) ++ ws.flyoutRenders.toList.map (.flyout, ·)

def clearRenders (ws : Workspace) : Workspace :=
  { ws with mainRenders := ∅, flyoutRenders := ∅ }

end Workspace

namespace WorkspaceM

/-- Sweeps the pool and counts what is left in use. -/
def collect : WorkspaceM Census := modifyGet fun ws => (ws.collect.pool.census, ws.collect)

def poll (now : Nat) : WorkspaceM (Option Census) := modifyGet fun ws =>
  let (swept, ws) := ws.pollSweep now
  (if swept then some ws.pool.census else none, ws)

def perform : Command → WorkspaceM Reply
  | .add canvas kind => .block <$> addBlock canvas kind
  | .addOperator name => .block <$> addOperator name
  | .addCase typeName => .block <$> addCase typeName
  | .remove b => (fun _ => .done) <$> removeBlock b
  | .connect a b => .subst <$> connect a b
  | .plug child parent slot => .subst <$> plug child parent slot
  | .unplug parent child => (fun _ => .done) <$> unplug parent child
  | .infer => .report <$> infer
  | .renameParameter b old new => .report <$> renameParameter b old new
  | .addParameter b name => .report <$> addParameter b name
  | .removeParameter b name => .report <$> removeParameter b name
  | .addGenerator b name => .report <$> edit b (BlockKind.addGenerator name)
  | .removeGenerator b name => .report <$> edit b (BlockKind.removeGenerator name)
  | .addGuard b => .report <$> edit b BlockKind.addGuard
  | .removeGuard b => .report <$> edit b BlockKind.removeGuard
  | .setItems b items => .report <$> edit b (BlockKind.setItems items)
  | .allocate => .typeVar <$> onPool VarPool.allocate
  | .collect => (fun census => .swept (some census)) <$> collect
  | .requestSweep => (fun _ => .done) <$> requestSweep
  | .poll now => .swept <$> poll now
  | .wait millis => modifyGet fun ws => (.done, { ws with clock := ws.clock + millis })
  | .takeRenders => modifyGet fun ws => (.renders ws.renders, ws.clearRenders)

end WorkspaceM

namespace Workspace

/-- Performs a command. One that is refused may have changed the workspace. -/
def perform (ws : Workspace) (command : Command) : Except WorkspaceError Reply × Workspace :=
  (WorkspaceM.perform command).run ws

/-- The workspace after a command, whatever the reply. -/
def after (ws : Workspace) (command : Command) : Workspace := (ws.perform command).2

/-- The workspaces that commands lead to, each allowed where it is performed. -/
inductive Reachable (allowed : Workspace → Command → Prop) : Workspace → Prop
  | start (settings : Settings) : Reachable allowed (ofSettings settings)
  | after {ws : Workspace} {command : Command} (h : Reachable allowed ws)
      (hallowed : allowed ws command) : Reachable allowed (ws.after command)

end Workspace

end Plugboard
