import Plugboard.Proofs.BareActions
import Plugboard.Proofs.SearchedGroups
import Plugboard.Workspace.Command

/-!
# Inference with nothing to spare

Inference as it runs without a bound on its walks and with a search for the groups of functions that
counts on every number it looks up. It has the same outcome on every workspace.
-/

namespace Plugboard.BareWorkspace

open BareM WorkspaceM Workspace Plugboard.Graph

noncomputable section

/-- Runs a walk over a workspace. -/
def query {α : Type} (f : Workspace → Walk α) : BareM WorkspaceError Workspace α :=
  walk .structural f

/-- Runs a walk over the main canvas. -/
def ask {α : Type} (f : Graph → Walk α) : BareM WorkspaceError Workspace α :=
  query fun ws => f ws.main

/-- Runs an action on the main canvas. -/
def onMain {α : Type} (action : BareM Fault Graph α) : BareM WorkspaceError Workspace α := do
  let ws ← .of get
  let (result, g) ← found (action.run ws.main)
  .of (set { ws with main := g })
  match result with
  | .ok a => return a
  | .error e => throw (.structural e)

def annotate (types : Std.ExtTreeMap Tag Ty) : BareM WorkspaceError Workspace Unit := do
  let members ← onMain (BareGraph.annotate types)
  .of (requestRender .main members)

/-- The functions that are called below a block. -/
def calleesBelow (ws : Workspace) (b : BlockId) : Walk BlockSet := do
  let below ← exploreFrom ws.main.children b
  return .ofList (below.toList.filterMap fun inner => do
    let block ← ws.main.blocks[inner]?
    let name ← block.kind.operatorName?
    ws.functionTable[name]?)

def callGraph (ws : Workspace) : Walk CallGraph := do
  let calls ← ws.functionTable.values.mapM fun b => return (b, ← calleesBelow ws b)
  return ⟨.ofList calls⟩

/-- A function block with its lowered body, if lowering it ends. -/
def member? (ws : Workspace) (b : BlockId) : Option (Option Member) :=
  match ws.main.blocks[b]?.bind (·.kind.function?) with
  | none => some none
  | some (name, _) => (lowerTree ws.main b).run.map fun lowered => some ⟨b, name, lowered⟩

def clearWarnings (roots : List BlockId) : BareM WorkspaceError Workspace Unit := do
  let trees ← roots.mapM fun root => ask fun g => exploreFrom g.neighbours root
  let bodies ← (← .of get).functions.mapM fun (b, _) => ask fun g => exploreFrom g.children b
  let stale : BlockSet := (trees ++ bodies).foldl (· ∪ ·) ∅
  .of (stale.toList.forM fun b => WorkspaceM.onMain (GraphM.setWarning b none))

def inferGroup (env : Env) (group : List BlockId) : BareM WorkspaceError Workspace Env := do
  let members? ← found (group.mapM (member? (← .of get)))
  let (typing, _) ← .of (runInference (FunctionGroup.infer env (members?.filterMap id)))
  annotate typing.types
  .of (typing.errors.forM fun (b, e) => warn b e)
  return env.insertMany typing.schemes

def globalEnv : BareM WorkspaceError Workspace Env := do
  let calls ← query callGraph
  let groups ← found calls.searchGroups
  groups.foldlM inferGroup (← .of get).declaredEnv

def inferTree (env : Env) (root : BlockId) (expected : Option Ty) :
    BareM WorkspaceError Workspace Unit := do
  match ← found (lowerTree (← .of get).main root).run with
  | .error e => .of (warn root (.structural e))
  | .ok l =>
      let inference := match expected with
        | some t => l.inferAs env root t .empty
        | none => l.inferSection env
      let (result, notes) ← .of (runInference inference)
      match result with
      | .ok s => annotate (InferM.resolve s notes)
      | .error e => .of (warn root e)

def inferSlot (env : Env) (input : SocketId) : BareM WorkspaceError Workspace Nat := do
  match ← .of (WorkspaceM.ask (·.pluggedBlock input)) with
  | none => return 0
  | some child =>
      inferTree env child (← .of (WorkspaceM.ask (·.socketTy input)))
      return 1

/-- The sum of what an action gives over a list. -/
def total {α : Type} (action : α → BareM WorkspaceError Workspace Nat) (xs : List α) :
    BareM WorkspaceError Workspace Nat :=
  xs.foldlM (fun sum x => return sum + (← action x)) 0

def inferRoot (env : Env) (root : BlockId) : BareM WorkspaceError Workspace Nat := do
  let block ← .of (WorkspaceM.ask (·.block root))
  match block.kind with
  | .function _ _ | .data _ => return 0
  | .statement _ => total (inferSlot env) block.inputs
  | _ =>
      inferTree env root none
      return 1

def inferRoots (roots : List BlockId) : BareM WorkspaceError Workspace Report := do
  clearWarnings roots
  let env ← globalEnv
  let count ← total (inferRoot env) roots
  return ⟨count, (← .of get).warnings⟩

def infer : BareM WorkspaceError Workspace Report := do
  inferRoots (← .of get).main.topBlocks

end

section Equality

variable {α : Type}

theorem run_query_eq (k : Workspace → Except Fault α) (ws : Workspace) :
    (WorkspaceM.query k).run ws = match k ws with
      | .ok a => (.ok a, ws)
      | .error e => (.error (.structural e), ws) := by
  change (ExceptT.run (match k ws with
    | .ok a => pure a | .error e => throw (.structural e) : WorkspaceM α)) ws = _
  cases k ws <;> rfl

theorem query_eq {f : Workspace → Walk α} {k : Workspace → Except Fault α}
    (h : ∀ ws, f ws = .of (k ws)) : query f = .of (WorkspaceM.query k) :=
  walk_eq (run_query_eq k) h

theorem ask_eq {f : Graph → Walk α} {k : Graph → Except Fault α} (h : ∀ g, f g = .of (k g)) :
    ask f = .of (WorkspaceM.ask k) :=
  query_eq fun ws => h ws.main

/-- An action on the main canvas matches where it does so on that canvas. -/
theorem matches_onMain {I : Graph → Prop} {J : α → Graph → Prop} {x : BareM Fault Graph α}
    {y : GraphM α} (h : Matches I J x y) :
    Matches (fun ws => I ws.main) (fun a ws => J a ws.main) (onMain x) (WorkspaceM.onMain y) := by
  intro ws hws
  obtain ⟨hrun, hended⟩ := h ws.main hws
  refine ⟨?_, ends_onMain.2 hended⟩
  have hgoes : ∀ out : Except Fault α × Graph,
      (found (some out) >>= fun out => (do
        .of (set { ws with main := out.2 })
        match out.1 with
        | .ok a => return a
        | .error e => throw (.structural e)) : BareM WorkspaceError Workspace α).run ws =
      some ((do
        set { ws with main := out.2 }
        match out.1 with
        | .ok a => return a
        | .error e => throw (.structural e) : WorkspaceM α).run ws) := fun (r, g) => by
    cases r <;> rfl
  refine Eq.trans ?_ (hgoes (y.run ws.main))
  rw [← hrun]
  rfl

theorem onMain_eq {x : BareM Fault Graph α} {y : GraphM α} (h : x = .of y) :
    onMain x = .of (WorkspaceM.onMain y) :=
  (matches_onMain (I := fun _ => True) (.of_eq h)).eq_of

theorem annotate_eq (types : Std.ExtTreeMap Tag Ty) :
    annotate types = .of (WorkspaceM.annotate types) := by
  rw [annotate, onMain_eq (BareGraph.annotate_eq types), WorkspaceM.annotate, of_bind]

theorem calleesBelow_eq (ws : Workspace) (b : BlockId) :
    calleesBelow ws b = .of (ws.calleesBelow b) := by
  rw [calleesBelow, exploreFrom_children]
  exact Walk.of_bind_eq fun _ _ => rfl

theorem callGraph_eq (ws : Workspace) : callGraph ws = .of ws.callGraph := by
  have hcalls : (ws.functionTable.values.mapM fun b => return (b, ← calleesBelow ws b)) =
      Walk.of (ws.functionTable.values.mapM fun b => return (b, ← ws.calleesBelow b)) :=
    Walk.mapM_eq fun b _ => by
      rw [calleesBelow_eq]
      exact Walk.of_bind_eq fun _ _ => rfl
  rw [callGraph, hcalls]
  exact Walk.of_bind_eq fun _ _ => rfl

theorem mapM_member?_eq (ws : Workspace) (group : List BlockId) :
    group.mapM (member? ws) = some (group.map ws.member?) := by
  have hmember : ∀ b, member? ws b = some (ws.member? b) := fun b => by
    rw [member?, lowerTree_eq, Workspace.member?]
    cases ws.main.blocks[b]? with
    | none => rfl
    | some block => cases hf : block.kind.function? <;> simp [hf, Walk.of]
  rw [funext hmember]
  exact List.mapM_pure

theorem clearWarnings_eq (roots : List BlockId) :
    clearWarnings roots = .of (WorkspaceM.clearWarnings roots) := by
  have htrees := BareM.mapM_eq (fun root => ask_eq fun g => exploreFrom_neighbours g root) roots
  have hbodies := BareM.mapM_eq
    (fun f : BlockId × String × List String => ask_eq fun g => exploreFrom_children g f.1)
  simp only [clearWarnings, WorkspaceM.clearWarnings, of_bind, htrees, hbodies]

theorem inferGroup_eq (env : Env) (group : List BlockId) :
    inferGroup env group = .of (WorkspaceM.inferGroup env group) := by
  rw [inferGroup, WorkspaceM.inferGroup, of_bind]
  congr 1
  funext ws
  have hmembers : (group.map ws.member?).filterMap id = group.filterMap ws.member? := by
    rw [List.filterMap_map, Function.id_comp]
  simp only [mapM_member?_eq, found, pure_bind, hmembers, annotate_eq, of_bind, of_pure]

theorem globalEnv_eq : globalEnv = .of WorkspaceM.globalEnv := by
  simp only [globalEnv, WorkspaceM.globalEnv, of_bind, query_eq callGraph_eq,
    CallGraph.searchGroups_eq, BareM.foldlM_eq inferGroup_eq]
  rfl

theorem inferTree_eq (env : Env) (root : BlockId) (expected : Option Ty) :
    inferTree env root expected = .of (WorkspaceM.inferTree env root expected) := by
  rw [inferTree, WorkspaceM.inferTree, of_bind]
  congr 1
  funext ws
  have hfound : (found (Walk.of (ws.main.lower root)).run : BareM WorkspaceError Workspace _) =
      pure (ws.main.lower root) := rfl
  rw [lowerTree_eq, hfound, pure_bind]
  cases ws.main.lower root with
  | error e => rfl
  | ok l =>
      dsimp only
      rw [of_bind]
      congr 1
      funext out
      cases out.1 with
      | ok s => exact annotate_eq _
      | error e => rfl

theorem total_eq {action : α → BareM WorkspaceError Workspace Nat} {k : α → WorkspaceM Nat}
    (h : ∀ a, action a = .of (k a)) (xs : List α) : total action xs = .of (WorkspaceM.total k xs) :=
  BareM.foldlM_eq (fun sum a => by simp only [h, of_bind, of_pure]) xs 0

theorem inferSlot_eq (env : Env) (input : SocketId) :
    inferSlot env input = .of (WorkspaceM.inferSlot env input) := by
  rw [inferSlot, WorkspaceM.inferSlot, of_bind]
  congr 1
  funext child?
  cases child? with
  | none => rfl
  | some child => simp only [inferTree_eq, of_bind, of_pure]

theorem inferRoot_eq (env : Env) (root : BlockId) :
    inferRoot env root = .of (WorkspaceM.inferRoot env root) := by
  rw [inferRoot, WorkspaceM.inferRoot, of_bind]
  congr 1
  funext block
  cases block.kind <;> simp only [inferTree_eq, total_eq (inferSlot_eq env), of_bind, of_pure]

theorem inferRoots_eq (roots : List BlockId) :
    inferRoots roots = .of (WorkspaceM.inferRoots roots) := by
  simp only [inferRoots, WorkspaceM.inferRoots, clearWarnings_eq, globalEnv_eq,
    total_eq (inferRoot_eq _), of_bind, of_pure]

theorem infer_eq : infer = .of WorkspaceM.infer := by
  simp only [infer, WorkspaceM.infer, inferRoots_eq, of_bind]

end Equality

end Plugboard.BareWorkspace
