import Plugboard.Proofs.Coherence
import Plugboard.Proofs.BareInference

/-!
# Operations with nothing to spare

The commands as they run without a bound on their walks, clearing the places of blocks and sockets
by number, taking one from counters and removing elements by position. In a workspace that commands
lead to nothing of this goes wrong: the outcome is that of the command.
-/

namespace Plugboard

namespace BareWorkspace

open BareM WorkspaceM Workspace Plugboard.Graph

noncomputable section

/-- Removes the element at a position, which has to be there. -/
def removeAt {α : Type} (xs : List α) (index : Nat) : Option (List α) :=
  if index < xs.length then some (xs.eraseIdx index) else none

/-- Takes one from a number, which has to be above zero. -/
def decrement : Nat → Option Nat
  | 0 => none
  | n + 1 => some n

def componentsOf (blocks : List BlockId) : BareM WorkspaceError Workspace BlockSet :=
  ask fun g => componentsFrom g (blocks.filter g.contains)

def renew (b : BlockId) : BareM WorkspaceError Workspace (List BlockId) := do
  let block ← .of (WorkspaceM.ask (·.block b))
  let layout ← .of (layoutFor block.kind)
  onMain (BareGraph.replaceSockets b layout)

def reset (members : BlockSet) : BareM WorkspaceError Workspace (List BlockId) := do
  let detached ← members.toList.mapM renew
  let s ← .of (WorkspaceM.ask fun g => g.linkAgreement (g.linksWithin members))
  .of (WorkspaceM.onMain (modify (·.applyTo s members)))
  .of (requestRender .main members)
  return detached.flatten

def refresh (blocks : List BlockId) : BareM WorkspaceError Workspace Unit := do
  let members ← componentsOf blocks
  let detached ← reset members
  let remaining := (members.toList ++ detached).filter (← .of get).main.contains
  let roots ← remaining.mapM fun b => ask fun g => climbFrom g b
  let _ ← inferRoots (Std.ExtTreeSet.ofList roots).toList

def wouldCycle (g : Graph) (output input : SocketId) : Walk Bool := do
  let child := (← .of (g.socket output)).block
  let parent := (← .of (g.socket input)).block
  return (← exploreFrom g.children child).contains parent

def connect (a b : SocketId) : BareM WorkspaceError Workspace Subst := do
  let (output, input) ← .of (orient a b)
  .of (requireUnplugged output)
  .of (requireUnplugged input)
  let parent := (← .of (WorkspaceM.ask (·.socket input))).block
  if ← ask fun g => wouldCycle g output input then throw (.structural (.cycle parent))
  let outputTy ← .of (tyOrFresh output)
  let inputTy ← .of (tyOrFresh input)
  match unify outputTy inputTy with
  | .error e => throw (.incompatible e)
  | .ok s =>
      .of (WorkspaceM.onMain do
        GraphM.link output input
        GraphM.setTy output (some outputTy)
        GraphM.setTy input (some inputTy))
      let child := (← .of (WorkspaceM.ask (·.socket output))).block
      .of (modify fun ws => (ws.substitute .main s).substitute .flyout s)
      .of (requestRender .main (.ofList [child, parent]))
      .of requestSweep
      return s

def plug (child parent : BlockId) (slot : String) : BareM WorkspaceError Workspace Subst := do
  match (← .of (WorkspaceM.ask (·.block child))).output with
  | none => throw (.structural (.notAnExpression child))
  | some output =>
      let input ← .of (WorkspaceM.ask (·.inputNamed parent slot))
      connect output input

def unplug (parent child : BlockId) : BareM WorkspaceError Workspace Unit := do
  let output ← .of (pluggedOutput parent child)
  let _ ← .of (WorkspaceM.onMain (GraphM.unlink output))
  refresh [parent, child]
  .of requestSweep

def removeBlock (b : BlockId) : BareM WorkspaceError Workspace Unit := do
  let neighbours ← .of (WorkspaceM.ask (·.neighbours b))
  let _ ← onMain (BareGraph.removeBlock b)
  refresh neighbours
  .of requestSweep

def finishEdit (touched : List BlockId) : BareM WorkspaceError Workspace Report := do
  let members ← componentsOf touched
  let detached ← reset members
  let shed := (← componentsOf detached) \ members
  if ! shed.isEmpty then
    let _ ← reset shed
  let report ← infer
  .of requestSweep
  return report

/-- Changes the kind of one block, where it admits the change. -/
def edit (b : BlockId) (f : BlockKind → Option (Except String BlockKind)) :
    BareM WorkspaceError Workspace Report := do
  match ← found (f (← .of (WorkspaceM.ask (·.block b))).kind) with
  | .error reason => .of (malformed b reason)
  | .ok kind =>
      .of (setKind b fun _ => kind)
      finishEdit [b]

def removeGenerator (name : String) : BlockKind → Option (Except String BlockKind)
  | .comprehension vars guards =>
      match vars.idxOf? name with
      | none => some (.error ("no generator `" ++ name ++ "`"))
      | some index => (removeAt vars index).map fun vars => .ok (.comprehension vars guards)
  | _ => some (.error "not a list comprehension")

def removeGuard : BlockKind → Option (Except String BlockKind)
  | .comprehension vars guards =>
      if guards = 0 then some (.error "no guard to remove")
      else (decrement guards).map fun guards => .ok (.comprehension vars guards)
  | _ => some (.error "not a list comprehension")

def renameParameter (b : BlockId) (old new : String) :
    BareM WorkspaceError Workspace Report := do
  let (name, params) ← .of (functionAt b)
  if params.contains new then .of (malformed b ("parameter `" ++ new ++ "` already exists"))
  let uses ← ask fun g => usesFrom g old b
  if ! params.contains old then .of (malformed b ("no parameter `" ++ old ++ "`"))
  .of (setKind b fun _ => .function name (params.replace old new))
  .of (uses.forM fun use => setKind use fun _ => .variable new)
  finishEdit [b]

def addParameter (b : BlockId) (param : String) : BareM WorkspaceError Workspace Report := do
  let (name, params) ← .of (functionAt b)
  if params.contains param then
    .of (malformed b ("parameter `" ++ param ++ "` already exists"))
  .of (setKind b fun _ => .function name (params ++ [param]))
  let callers := (← .of get).main.callersOf name
  .of (callers.forM fun caller => setKind caller (·.mapArity (· + 1)))
  finishEdit (b :: callers)

/-- Makes a call take one argument less. -/
def lowerArity (caller : BlockId) : BareM WorkspaceError Workspace Unit := do
  match (← .of (WorkspaceM.ask (·.block caller))).kind with
  | .operator _ arity =>
      let arity ← found (decrement arity)
      .of (setKind caller (·.mapArity fun _ => arity))
  | _ => .of (malformed caller "not a call")

def removeArgument (caller : BlockId) (inputs : List SocketId) (index : Nat) :
    BareM WorkspaceError Workspace (Option BlockId) := do
  let plugged ← .of (inputs.mapM fun input => WorkspaceM.onMain (GraphM.unlink input))
  let rest ← found (removeAt plugged index)
  let removed ← match plugged[index]?.join with
    | none => pure none
    | some output => some <$> (·.block) <$> .of (WorkspaceM.ask (·.socket output))
  lowerArity caller
  let _ ← renew caller
  .of (rest.zipIdx.forM fun (output, i) => plugArgument caller i output)
  return removed

def removeParameter (b : BlockId) (param : String) : BareM WorkspaceError Workspace Report := do
  let (name, params) ← .of (functionAt b)
  match params.idxOf? param with
  | none => .of (malformed b ("no parameter `" ++ param ++ "`"))
  | some index =>
      let calls ← .of do
        ((← get).main.callersOf name).mapM fun caller => do
          let inputs ← (List.range params.length).mapM fun i =>
            WorkspaceM.ask (·.inputNamed caller (Slot.arg i))
          return (caller, inputs)
      let rest ← found (removeAt params index)
      .of (setKind b fun _ => .function name rest)
      let touched ← calls.mapM fun (caller, inputs) => do
        let removed ← removeArgument caller inputs index
        return removed.toList ++ [caller]
      finishEdit (b :: touched.flatten)

/-- Performs a command. What does neither walk nor count on anything is done as it is. -/
def perform : Command → BareM WorkspaceError Workspace Reply
  | .remove b => (fun _ => .done) <$> removeBlock b
  | .connect a b => .subst <$> connect a b
  | .plug child parent slot => .subst <$> plug child parent slot
  | .unplug parent child => (fun _ => .done) <$> unplug parent child
  | .infer => .report <$> infer
  | .renameParameter b old new => .report <$> renameParameter b old new
  | .addParameter b name => .report <$> addParameter b name
  | .removeParameter b name => .report <$> removeParameter b name
  | .addGenerator b name => .report <$> edit b fun kind => some (kind.addGenerator name)
  | .removeGenerator b name => .report <$> edit b (removeGenerator name)
  | .addGuard b => .report <$> edit b fun kind => some kind.addGuard
  | .removeGuard b => .report <$> edit b removeGuard
  | .setItems b items => .report <$> edit b fun kind => some (kind.setItems items)
  | command => .of (WorkspaceM.perform command)

end

section Outcomes

variable {ws : Workspace}

/-- Every socket of the main canvas has a place. -/
abbrev PlacedMain (ws : Workspace) : Prop := BareGraph.Placed ws.main

theorem placedMain_of_settled (h : ws.Settled ∅) : PlacedMain ws := h.1.1.toWired.bounded

theorem componentsOf_eq (blocks : List BlockId) :
    componentsOf blocks = .of (WorkspaceM.componentsOf blocks) :=
  ask_eq fun g => componentsFrom_eq g _

theorem preserves_layoutFor (kind : BlockKind) : Preserves PlacedMain (layoutFor kind) :=
  fun ws hws => (ends_layoutFor ws kind).imp
    (fun _ _ ⟨_, _, _, hws'⟩ => hws' ▸ hws) fun _ hfail => hfail.1 ▸ hws

theorem preserves_setKind (b : BlockId) (f : BlockKind → BlockKind) :
    Preserves PlacedMain (setKind b f) :=
  main_onMain (BareGraph.preserves_updateBlock b _)

theorem matches_renew (b : BlockId) :
    Matches PlacedMain (fun _ => PlacedMain) (renew b) (WorkspaceM.renew b) :=
  .bind (.of_preserves (preserves_ask _)) fun block =>
    .bind (.of_preserves (preserves_layoutFor block.kind)) fun layout =>
      matches_onMain (BareGraph.matches_replaceSockets b layout)

theorem matches_reset (members : BlockSet) :
    Matches PlacedMain (fun _ => PlacedMain) (reset members) (WorkspaceM.reset members) := by
  have hrenew := Matches.mapM (I := fun _ => PlacedMain) (fun b _ => matches_renew b)
    members.toList
  have happly : ∀ s, Preserves PlacedMain (WorkspaceM.onMain (modify (·.applyTo s members))) :=
    fun s => main_onMain (.modify fun _ => (durable_shape Shape.Bounded).applyTo s members)
  refine hrenew.bind fun detached => .bind (.of_preserves (preserves_ask _)) fun s => ?_
  refine .bind (.of_preserves (happly s)) fun _ => ?_
  exact .bind (.of_preserves (.modify fun _ => id)) fun _ => .pure _

theorem matches_refresh (blocks : List BlockId) :
    Matches PlacedMain (fun _ _ => True) (refresh blocks) (WorkspaceM.refresh blocks) := by
  rw [refresh, WorkspaceM.refresh, componentsOf_eq]
  refine .bind (.of_preserves (preserves_ask _)) fun members => ?_
  -- from here on nothing is counted on, and every walk ends on every graph
  refine (matches_reset members).bind fun detached => .of_eq ?_
  have hroots := BareM.mapM_eq fun b => ask_eq fun g => climbFrom_eq g b
  simp only [hroots, inferRoots_eq, of_bind, of_pure]

theorem matches_finishEdit (touched : List BlockId) :
    Matches PlacedMain (fun _ _ => True) (finishEdit touched)
      (WorkspaceM.finishEdit touched) := by
  rw [finishEdit, WorkspaceM.finishEdit]
  simp only [componentsOf_eq, infer_eq]
  refine .bind (.of_preserves (preserves_ask _)) fun members => ?_
  refine (matches_reset members).bind fun detached => ?_
  refine .bind (.of_preserves (preserves_ask _)) fun found => ?_
  have hrest : Matches PlacedMain (fun _ _ => True)
      (do let report ← .of WorkspaceM.infer; .of requestSweep; return report)
      (do let report ← WorkspaceM.infer; requestSweep; return report) :=
    .of_eq (by simp only [of_bind, of_pure])
  exact .ite ((matches_reset _).bind fun _ => hrest) hrest

theorem wouldCycle_eq (g : Graph) (output input : SocketId) :
    wouldCycle g output input = .of (g.wouldCycle output input) := by
  refine Walk.of_bind_eq fun child _ => Walk.of_bind_eq fun parent _ => ?_
  rw [exploreFrom_children]
  exact Walk.of_bind_eq fun _ _ => rfl

theorem connect_eq (a b : SocketId) : connect a b = .of (WorkspaceM.connect a b) := by
  refine Matches.eq_of (J := fun _ _ => True) ?_
  simp only [connect, WorkspaceM.connect, ask_eq fun g => wouldCycle_eq g _ _]
  refine .bind (.of_eq rfl) fun (output, input) => ?_
  refine .bind (.of_eq rfl) fun _ => .bind (.of_eq rfl) fun _ => .bind (.of_eq rfl) fun parent => ?_
  -- the walk is the only step that is not the same one
  refine .bind (.of_eq rfl) fun cycle => .ite (.of_eq rfl) ?_
  refine .bind (.of_eq rfl) fun outputTy => .bind (.of_eq rfl) fun inputTy => ?_
  cases unify outputTy inputTy with
  | error e => exact .of_eq rfl
  | ok s => exact .of_eq (by simp only [of_bind, of_pure])

theorem plug_eq (child parent : BlockId) (slot : String) :
    plug child parent slot = .of (WorkspaceM.plug child parent slot) := by
  rw [plug, WorkspaceM.plug, of_bind]
  congr 1
  funext block
  cases block.output with
  | none => rfl
  | some output => simp only [connect_eq, of_bind]

theorem matches_unplug (parent child : BlockId) :
    Matches (Settled ∅) (fun _ _ => True) (unplug parent child)
      (WorkspaceM.unplug parent child) := by
  have hplugged : ∀ ws, Settled ∅ ws → Ends (pluggedOutput parent child) ws (fun _ => PlacedMain)
      PlacedMain := fun ws hws => by
    have hplaced := placedMain_of_settled hws
    exact (ends_pluggedOutput hws.1.1.toWired parent child).imp (fun _ _ h => h.1 ▸ hplaced)
      fun _ h => h ▸ hplaced
  have hunlink : ∀ output, Preserves PlacedMain (WorkspaceM.onMain (GraphM.unlink output)) :=
    fun output => main_onMain fun g hg =>
      (BareGraph.ends_unlink hg output).imp (fun _ _ => And.left) fun _ => id
  refine .bind (.of_ends hplugged) fun output => .bind (.of_preserves (hunlink output)) fun _ => ?_
  exact (matches_refresh _).bind fun _ => .of_eq rfl

theorem matches_removeBlock (b : BlockId) :
    Matches (Settled ∅) (fun _ _ => True) (removeBlock b) (WorkspaceM.removeBlock b) := by
  refine .bind (.of_preserves (preserves_ask _)) fun neighbours => ?_
  have hremove : Matches (Settled ∅) (fun _ => PlacedMain) (onMain (BareGraph.removeBlock b))
      (WorkspaceM.onMain (GraphM.removeBlock b)) :=
    (matches_onMain (BareGraph.matches_removeBlock b)).imp (fun _ hws => hws.1.1.toWired)
      fun _ _ => id
  refine hremove.bind fun _ => ?_
  exact (matches_refresh _).bind fun _ => .of_eq rfl

theorem matches_edit (b : BlockId) {f : BlockKind → Option (Except String BlockKind)}
    {k : BlockKind → Except String BlockKind} (hf : ∀ kind, f kind = some (k kind)) :
    Matches PlacedMain (fun _ _ => True) (edit b f) (WorkspaceM.edit b k) := by
  refine .bind (.of_preserves (preserves_ask _)) fun block => ?_
  rw [hf, found, pure_bind]
  cases k block.kind with
  | error reason => exact .of_eq rfl
  | ok kind => exact .bind (.of_preserves (preserves_setKind b _)) fun _ => matches_finishEdit [b]

/-- The element at the first position of a name is there to be removed. -/
theorem removeAt_of_idxOf?_eq_some {xs : List String} {x : String} {i : Nat}
    (h : xs.idxOf? x = some i) :
    xs.contains x = true ∧ xs.idxOf x = i ∧ removeAt xs i = some (xs.erase x) := by
  obtain ⟨hlt, heq, -⟩ := List.idxOf?_eq_some_iff.1 h
  refine ⟨List.contains_iff_mem.2 (heq ▸ List.getElem_mem hlt), ?_, ?_⟩
  · rw [List.idxOf_eq_getD_idxOf?, h, Option.getD_some]
  · rw [removeAt, if_pos hlt, List.erase_eq_eraseIdx, h]

theorem contains_of_idxOf?_eq_none {xs : List String} {x : String} (h : xs.idxOf? x = none) :
    xs.contains x = false := by
  rw [← Bool.not_eq_true, List.contains_iff_mem]
  exact List.idxOf?_eq_none_iff.1 h

theorem removeGenerator_eq (name : String) (kind : BlockKind) :
    removeGenerator name kind = some (kind.removeGenerator name) := by
  cases kind with
  | comprehension vars guards =>
      rw [removeGenerator, BlockKind.removeGenerator, BlockKind.editComprehension]
      cases hindex : vars.idxOf? name with
      | none =>
          rw [contains_of_idxOf?_eq_none hindex]
          rfl
      | some index =>
          obtain ⟨hmem, -, hremove⟩ := removeAt_of_idxOf?_eq_some hindex
          dsimp only
          rw [hmem, hremove]
          rfl
  | _ => rfl

theorem removeGuard_eq (kind : BlockKind) : removeGuard kind = some kind.removeGuard := by
  cases kind with
  | comprehension vars guards => cases guards <;> rfl
  | _ => rfl

theorem preserves_functionAt {P : Workspace → Prop} (b : BlockId) : Preserves P (functionAt b) :=
  fun _ hws => (ends_functionAt b).imp (fun _ _ h => h.1 ▸ hws) fun _ h => h ▸ hws

theorem matches_renameParameter (b : BlockId) (old new : String) :
    Matches (Settled ∅) (fun _ _ => True) (renameParameter b old new)
      (WorkspaceM.renameParameter b old new) := by
  refine .bind (.of_preserves (preserves_functionAt b)) fun (name, params) => ?_
  refine .ite (.of_eq rfl) ?_
  have huses : Matches (Settled ∅) (fun _ => PlacedMain) (ask fun g => usesFrom g old b)
      (WorkspaceM.ask (·.usesOf b old)) :=
    (matches_walk (run_query_eq _) fun ws hws =>
      usesFrom_eq hws.1.1.toWired hws.1.1.acyclic old b).imp (fun _ => id)
        fun _ _ h => placedMain_of_settled h.1
  refine huses.bind fun uses => .ite (.of_eq rfl) ?_
  refine .bind (.of_preserves (preserves_setKind b _)) fun _ => ?_
  refine .bind (.of_preserves (.forM fun use _ => preserves_setKind use _)) fun _ => ?_
  exact matches_finishEdit [b]

theorem matches_addParameter (b : BlockId) (param : String) :
    Matches PlacedMain (fun _ _ => True) (addParameter b param)
      (WorkspaceM.addParameter b param) := by
  refine .bind (.of_preserves (preserves_functionAt b)) fun (name, params) => ?_
  refine .ite (.of_eq rfl) ?_
  refine .bind (.of_preserves (preserves_setKind b _)) fun _ => ?_
  refine .bind (.of_preserves .get) fun ws => ?_
  refine .bind (.of_preserves (.forM fun caller _ => preserves_setKind caller _)) fun _ => ?_
  exact matches_finishEdit _

theorem run_setKind {b : BlockId} {block : Block} (hblock : ws.main.blocks[b]? = some block)
    (f : BlockKind → BlockKind) :
    (setKind b f).run ws = (.ok ⟨⟩, { ws with
      main := ws.main.modifyBlock b fun block => { block with kind := f block.kind } }) := by
  have hends : Ends (setKind b f) ws (fun _ ws' => ws' = { ws with
      main := ws.main.modifyBlock b fun block => { block with kind := f block.kind } })
      fun _ => False := by
    simp only [setKind, ends_onMain, GraphM.updateBlock, ends_bind, GraphM.ends_ask, Graph.block,
      hblock, ends_modify]
  obtain ⟨_, _, hrun, rfl⟩ := hends.exists_run
  exact hrun

/-- A change of a block is known by what it does to the one block that there is. -/
theorem modifyBlock_congr {g : Graph} {b : BlockId} {block : Block}
    (hblock : g.blocks[b]? = some block) {f f' : Block → Block} (h : f block = f' block) :
    g.modifyBlock b f = g.modifyBlock b f' := by
  have hblocks : (g.modifyBlock b f).blocks = (g.modifyBlock b f').blocks := by
    refine Std.ExtTreeMap.ext_getElem? fun {c} => ?_
    rw [getElem?_modifyBlock, getElem?_modifyBlock]
    split
    · rename_i hc
      rw [← hc, hblock, Option.map_some, Option.map_some, h]
    · rfl
  exact congrArg (fun blocks => { g with blocks }) hblocks

theorem run_setKind_congr {b : BlockId} {block : Block} (hblock : ws.main.blocks[b]? = some block)
    {f f' : BlockKind → BlockKind} (h : f block.kind = f' block.kind) :
    (setKind b f).run ws = (setKind b f').run ws := by
  have hchanged : (ws.main.modifyBlock b fun block => { block with kind := f block.kind }) =
      ws.main.modifyBlock b fun block => { block with kind := f' block.kind } :=
    modifyBlock_congr hblock (congrArg (fun kind => ({ block with kind } : Block)) h)
  rw [run_setKind hblock, run_setKind hblock, hchanged]

/-- A block is a call that has an argument to lose. -/
structure HasArgument (caller : BlockId) (ws : Workspace) : Prop where
  placed : PlacedMain ws
  call : ∃ p name arity, ws.main.shape.ports caller = some p ∧ p.kind = .operator name arity ∧
    0 < arity

theorem matches_lowerArity (caller : BlockId) :
    Matches (HasArgument caller) (fun _ => PlacedMain) (lowerArity caller)
      (setKind caller (·.mapArity (· - 1))) := by
  rintro ws ⟨hplaced, p, name, arity, hp, hkind, harity⟩
  refine ⟨?_, (preserves_setKind caller _ ws hplaced).imp (fun _ _ => id) fun _ _ => trivial⟩
  obtain ⟨block, hblock, rfl⟩ := Graph.shape_ports_eq_some.1 hp
  obtain ⟨n, rfl⟩ := Nat.exists_eq_succ_of_ne_zero harity.ne'
  change block.kind = .operator name (n + 1) at hkind
  have hask : (WorkspaceM.ask (·.block caller)).run ws = (.ok block, ws) :=
    run_query (block_eq_ok.2 hblock)
  rw [lowerArity, run_of_bind hask, hkind]
  change some ((setKind caller (·.mapArity fun _ => n)).run ws) = _
  refine congrArg some (run_setKind_congr hblock ?_)
  rw [hkind]
  rfl

/-- A call keeps its arguments when they are unplugged, and among them the one at `index`. -/
theorem matches_unlinkAll (caller : BlockId) (inputs : List SocketId) (index : Nat) :
    let action := inputs.mapM fun input => WorkspaceM.onMain (GraphM.unlink input)
    Matches (fun ws => ws.Settled ∅ ∧ ws.main.shape.Arguments caller inputs ∧
        index < inputs.length)
      (fun plugged ws => index < plugged.length ∧ HasArgument caller ws) (.of action) action := by
  refine .of_ends (E := fun _ => False) fun ws ⟨hws, harguments, hindex⟩ => ?_
  refine (ends_unlinkAll hws harguments.nodup fun _ => harguments.exists_slot).imp
    (fun plugged ws' ⟨hws', hunplugged⟩ => ⟨?_, placedMain_of_settled hws', ?_⟩) fun _ => id
  · rwa [hunplugged.was, List.length_map]
  · obtain ⟨name, arity, ⟨p, hp, hkind⟩, harity⟩ := harguments.call
    rw [hunplugged.ports]
    exact ⟨p, name, arity, hp, hkind, by omega⟩

theorem matches_removeArgument (caller : BlockId) (inputs : List SocketId) (index : Nat) :
    Matches (fun ws => ws.Settled ∅ ∧ ws.main.shape.Arguments caller inputs ∧
        index < inputs.length) (fun _ _ => True)
      (removeArgument caller inputs index) (WorkspaceM.removeArgument caller inputs index) := by
  refine (matches_unlinkAll caller inputs index).bind fun plugged => ?_
  refine .given (fun _ hws => hws.1) fun hindex => ?_
  rw [removeAt, if_pos hindex, found, pure_bind]
  have hrest : ∀ removed : Option BlockId, Matches
        (fun ws => index < plugged.length ∧ HasArgument caller ws) (fun _ _ => True)
      (do
        lowerArity caller
        let _ ← renew caller
        .of ((plugged.eraseIdx index).zipIdx.forM fun (output, i) => plugArgument caller i output)
        return removed)
      (do
        setKind caller (·.mapArity (· - 1))
        let _ ← WorkspaceM.renew caller
        (plugged.eraseIdx index).zipIdx.forM fun (output, i) => plugArgument caller i output
        return removed) := fun removed => by
    refine ((matches_lowerArity caller).imp (fun _ => And.right) fun _ _ => id).bind fun _ => ?_
    exact (matches_renew caller).bind fun _ => .of_eq (by simp only [of_bind, of_pure])
  cases plugged[index]?.join with
  | none => exact hrest none
  | some output =>
      have hask : Preserves (fun ws => index < plugged.length ∧ HasArgument caller ws)
          (some <$> (·.block) <$> WorkspaceM.ask (·.socket output)) :=
        .map (.map (preserves_ask _))
      dsimp only
      rw [← of_map, ← of_map]
      exact .bind (.of_preserves hask) hrest

/-- Every call can be made to take one argument less. -/
theorem matches_removeArguments (index : Nat) (calls : List (BlockId × List SocketId)) :
    Matches (Losing index calls) (fun _ => PlacedMain)
      (calls.mapM fun (caller, inputs) => do
        let removed ← removeArgument caller inputs index
        return removed.toList ++ [caller])
      (calls.mapM fun (caller, inputs) => do
        let removed ← WorkspaceM.removeArgument caller inputs index
        return removed.toList ++ [caller]) := by
  refine (Matches.mapM (I := Losing index) (fun (caller, inputs) rest => ?_) calls).imp
    (fun _ => id) fun _ _ hws => placedMain_of_settled hws.settled
  have hstep : Matches (Losing index ((caller, inputs) :: rest)) (fun _ => Losing index rest)
      (removeArgument caller inputs index) (WorkspaceM.removeArgument caller inputs index) :=
    Matches.with_ends ((matches_removeArgument caller inputs index).imp
      (fun ws hws => ⟨hws.settled, hws.arguments _ List.mem_cons_self,
        hws.inRange _ List.mem_cons_self⟩) fun _ _ => id) fun _ hws =>
          hws.ends_removeArgument.imp (fun _ _ => And.left) fun _ => id
  exact hstep.bind fun _ => .pure _

/-- A block is a function with this name and these parameters. -/
structure IsFunction (b : BlockId) (name : String) (params : List String) (ws : Workspace) :
    Prop where
  settled : ws.Settled ∅
  kind : ∃ p, ws.main.shape.ports b = some p ∧ p.kind = .function name params

theorem matches_functionAt (b : BlockId) :
    Matches (Settled ∅) (fun f => IsFunction b f.1 f.2) (.of (functionAt b)) (functionAt b) := by
  refine .of_ends (E := fun _ => True) fun ws hws =>
    (ends_functionAt b).imp (fun f ws' hended => ?_) fun _ _ => trivial
  obtain ⟨rfl, hkind⟩ := hended
  exact ⟨hws, hkind⟩

/-- The calls of a function are found with their arguments. -/
theorem matches_callsOf {b : BlockId} {name : String} {params : List String} {index : Nat}
    (hindex : index < params.length) :
    let action : WorkspaceM (List (BlockId × List SocketId)) := do
      ((← get).main.callersOf name).mapM fun caller => do
        let inputs ← (List.range params.length).mapM fun i =>
          WorkspaceM.ask (·.inputNamed caller (Slot.arg i))
        return (caller, inputs)
    Matches (IsFunction b name params)
      (fun calls ws => Losing index calls ws ∧ IsFunction b name params ws)
      (.of action) action := by
  refine .of_ends (E := fun _ => True) fun ws hws =>
    (ends_callsOf hws.settled name hindex).imp (fun calls ws' hended => ?_) fun _ _ => trivial
  obtain ⟨rfl, hcalls, -⟩ := hended
  exact ⟨hcalls, hws⟩

theorem matches_removeParameter (b : BlockId) (param : String) :
    Matches (Settled ∅) (fun _ _ => True) (removeParameter b param)
      (WorkspaceM.removeParameter b param) := by
  refine (matches_functionAt b).bind fun f => ?_
  obtain ⟨name, params⟩ := f
  dsimp only
  cases hfound : params.idxOf? param with
  | none =>
      rw [contains_of_idxOf?_eq_none hfound]
      exact .of_eq rfl
  | some index =>
      obtain ⟨hmem, rfl, hremove⟩ := removeAt_of_idxOf?_eq_some hfound
      obtain ⟨hindex, -⟩ := List.idxOf?_eq_some_iff.1 hfound
      simp only [hmem, Bool.not_true, Bool.false_eq_true, if_false, hremove, found, pure_bind]
      rw [← bind_assoc]
      -- the calls are found before the function changes, and stay calls when it does
      refine (matches_callsOf hindex).bind fun calls => ?_
      have hset : ∀ ws, Losing (params.idxOf param) calls ws ∧ IsFunction b name params ws →
          Ends (setKind b fun _ => .function name (params.erase param)) ws
            (fun _ => Losing (params.idxOf param) calls) fun _ => False := fun ws hws => by
        obtain ⟨p, hp, hkind⟩ := hws.2.kind
        exact (hws.1.ends_setFunction hp hkind _).imp (fun _ _ => And.left) fun _ => id
      refine .bind (.of_ends hset) fun _ => ?_
      exact (matches_removeArguments _ calls).bind fun _ => matches_finishEdit _

/-- In a settled workspace nothing that a command counts on is missing. -/
theorem matches_perform (command : Command) :
    Matches (Settled ∅) (fun _ _ => True) (perform command) (WorkspaceM.perform command) := by
  have hmap : ∀ {α : Type} {x : BareM WorkspaceError Workspace α} {y : WorkspaceM α}
      (f : α → Reply), Matches (Settled ∅) (fun _ _ => True) x y →
      Matches (Settled ∅) (fun _ _ => True) (f <$> x) (f <$> y) := fun _ h => h.map fun _ _ => id
  have hplaced : ∀ {α : Type} {x : BareM WorkspaceError Workspace α} {y : WorkspaceM α},
      Matches PlacedMain (fun _ _ => True) x y → Matches (Settled ∅) (fun _ _ => True) x y :=
    fun h => h.imp (fun _ => placedMain_of_settled) fun _ _ => id
  cases command with
  | remove b => exact hmap _ (matches_removeBlock b)
  | connect a b => exact hmap _ (.of_eq (connect_eq a b))
  | plug child parent slot => exact hmap _ (.of_eq (plug_eq child parent slot))
  | unplug parent child => exact hmap _ (matches_unplug parent child)
  | infer => exact hmap _ (.of_eq infer_eq)
  | renameParameter b old new => exact hmap _ (matches_renameParameter b old new)
  | addParameter b name => exact hmap _ (hplaced (matches_addParameter b name))
  | removeParameter b name => exact hmap _ (matches_removeParameter b name)
  | addGenerator b name => exact hmap _ (hplaced (matches_edit b fun _ => rfl))
  | removeGenerator b name => exact hmap _ (hplaced (matches_edit b (removeGenerator_eq name)))
  | addGuard b => exact hmap _ (hplaced (matches_edit b fun _ => rfl))
  | removeGuard b => exact hmap _ (hplaced (matches_edit b removeGuard_eq))
  | setItems b items => exact hmap _ (hplaced (matches_edit b fun _ => rfl))
  | _ => exact .of_eq rfl

end Outcomes

end BareWorkspace

namespace Workspace

variable {ws : Workspace}

/-- Whatever command is given next, nothing is missing that it counts on, every walk ends, and
inference reports. -/
theorem Reachable.perform_safe (h : ws.Reachable Command.AddsUnrepeated) :
    (∀ command, (BareWorkspace.perform command).run ws = some (ws.perform command)) ∧
      (∀ canvas, (ws.graph canvas).WalksEnd) ∧
        ∃ report, (ws.perform .infer).1 = .ok (.report report) := by
  have hsettled := h.settled
  refine ⟨fun command => (BareWorkspace.matches_perform command ws hsettled).1,
    fun canvas => ?_, ?_⟩
  · cases canvas with
    | main => exact Graph.walksEnd_of_acyclic hsettled.1.1.toWired hsettled.1.1.acyclic
    | flyout => exact Graph.walksEnd_of_acyclic hsettled.1.2.toWired hsettled.1.2.acyclic
  · have hreports : Ends (WorkspaceM.perform .infer) ws
        (fun reply _ => ∃ report, reply = .report report) fun _ => False :=
      ends_map.2 ((WorkspaceM.settled_infer ws hsettled).imp (fun report _ _ => ⟨report, rfl⟩)
        fun _ => id)
    obtain ⟨_, _, hrun, report, rfl⟩ := hreports.exists_run
    exact ⟨report, congrArg (·.1) hrun⟩

/-- A call is left of a function that is created anew with one more parameter. -/
theorem perform_safe_stale_call :
    let ws := [.add .main (.function "f" ["x"]), .addOperator "f", .remove ⟨0⟩,
      .add .main (.function "f" ["x", "y"])].foldl after (ofSettings default)
    (∀ command, (BareWorkspace.perform command).run ws = some (ws.perform command)) ∧
      (∀ canvas, (ws.graph canvas).WalksEnd) ∧
        ∃ report, (ws.perform .infer).1 = .ok (.report report) :=
  Reachable.perform_safe
    ((Reachable.start default).foldl (by simp [Command.AddsUnrepeated, BlockKind.Unrepeated]))

end Workspace

end Plugboard
