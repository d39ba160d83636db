import Plugboard.Proofs.Accounting
import Plugboard.Proofs.PairedCanvases

/-!
# Operations do not depend on names

An operation that is run on two workspaces which differ in the names of type variables either
succeeds on both or is refused on both for the same reason, and the workspaces differ in names
only afterwards. What is known of the names grows on the way, by names that are new on both sides.
-/

namespace Plugboard

/-- What is refused, once the types in it are renamed. -/
def WorkspaceError.rename (f : String → String) : WorkspaceError → WorkspaceError
  | .incompatible cause => .incompatible (cause.rename f)
  | e => e

namespace Pairing

open WorkspaceM

/-- The workspaces differ in the names of type variables and in the texts of warnings, and their
pools are those of the pairing. -/
structure Workspaces (p : Pairing) (ws ws' : Workspace) : Prop where
  left : ws.pool = p.left
  right : ws'.pool = p.right
  canvases : ∀ canvas, p.Canvases (ws.graph canvas) (ws'.graph canvas)

/-- Refusals for the same reason. -/
abbrev Refusals (p : Pairing) (e e' : WorkspaceError) : Prop := e' = e.rename p.rename

/-- Operations on paired workspaces. -/
abbrev Steps {α α' : Type} (p : Pairing) (x : WorkspaceM α) (x' : WorkspaceM α')
    (R : Pairing → α → α' → Prop) : Prop :=
  Parallel Workspaces Refusals p x x' R

/-- Both give the same answer. -/
abbrev Same {α : Type} (_ : Pairing) (a a' : α) : Prop := a = a'

variable {p : Pairing} {ws ws' : Workspace} {α α' : Type}

namespace Workspaces

variable (h : p.Workspaces ws ws')

include h

theorem main : p.Canvases ws.main ws'.main := h.canvases .main

theorem shape : ws.main.SameShape ws'.main := h.main.sameShape

theorem ground : ws.main.Ground := by
  intro b x hx
  have hb := h.main.blocks b
  rw [hx] at hb
  generalize ws'.main.blocks[b]? = x' at hb
  cases hb with
  | some hx => exact hx.ground

theorem setGraph {canvas : Canvas} {g g' : Graph} (hg : p.Canvases g g') :
    p.Workspaces (ws.setGraph canvas g) (ws'.setGraph canvas g') := by
  cases canvas with
  | main =>
      refine ⟨h.left, h.right, fun canvas => ?_⟩
      cases canvas with
      | main => exact hg
      | flyout => exact h.canvases .flyout
  | flyout =>
      refine ⟨h.left, h.right, fun canvas => ?_⟩
      cases canvas with
      | main => exact h.canvases .main
      | flyout => exact hg

theorem requestRender (canvas canvas' : Canvas) (blocks blocks' : BlockSet) :
    p.Workspaces (ws.requestRender canvas blocks) (ws'.requestRender canvas' blocks') := by
  cases canvas <;> cases canvas' <;>
    exact ⟨h.left, h.right, fun canvas => by cases canvas with
      | main => exact h.canvases .main
      | flyout => exact h.canvases .flyout⟩

theorem substitute {s s' : Subst} (hs : p.Substs s s') (canvas : Canvas) :
    p.Workspaces (ws.substitute canvas s) (ws'.substitute canvas s') := by
  have hids := (h.canvases canvas).sameShape.blockIds_eq
  have hset : (ws'.graph canvas).blockSet = (ws.graph canvas).blockSet := by
    rw [Graph.blockSet, Graph.blockSet, hids]
  refine Workspaces.requestRender (setGraph h ?_) _ _ _ _
  rw [hset]
  exact (h.canvases canvas).applyTo hs _

theorem functionScheme? (name : String) :
    Outcomes (Option.Rel p.Schemes) Eq (ws.functionScheme? name) (ws'.functionScheme? name) := by
  rw [Workspace.functionScheme?, Workspace.functionScheme?, Workspace.functionNamed?_eq h.shape]
  cases ws.functionNamed? name with
  | none => exact .ok .none
  | some f =>
      obtain ⟨b, params⟩ := f
      refine (h.main.block b).bind fun x x' hx => ?_
      have hargs : Option.Rel (List.Forall₂ p.Types) (params.mapM (x.params[·]?))
          (params.mapM (x'.params[·]?)) := by
        refine rel_mapM (R := Eq) (List.forall₂_refl params) ?_
        rintro name _ rfl
        exact hx.params name
      generalize params.mapM (x.params[·]?) = args at hargs ⊢
      generalize params.mapM (x'.params[·]?) = args' at hargs ⊢
      cases hargs with
      | none => exact .ok .none
      | some hargs =>
          rw [h.shape.inputNamed_eq]
          refine (Outcomes.eq_iff.2 rfl).bind fun s _ hs => hs ▸ ?_
          refine (h.main.socketTy s).bind fun t t' ht => .ok (rel_map ht fun _ _ hresult => ?_)
          exact .renamed (.closed (.curried hargs hresult))

theorem calleeScheme? (name : String) :
    Outcomes (Option.Rel p.Schemes) Eq (ws.calleeScheme? name) (ws'.calleeScheme? name) := by
  rw [Workspace.calleeScheme?, Workspace.calleeScheme?, Workspace.operatorScheme?_eq h.shape]
  cases hscheme : ws.operatorScheme? name with
  | some scheme =>
      exact .ok (.some (.closed (Workspace.closed_of_operatorScheme? h.ground hscheme)))
  | none => exact h.functionScheme? name

theorem setPool {q : Pairing} (hle : p ≤ q) {left right : VarPool} (hleft : left = q.left)
    (hright : right = q.right) :
    q.Workspaces { ws with pool := left } { ws' with pool := right } where
  left := hleft
  right := hright
  canvases canvas := by
    cases canvas with
    | main => exact lasting_canvases hle (h.canvases .main)
    | flyout => exact lasting_canvases hle (h.canvases .flyout)

end Workspaces

theorem steps_query {f : Workspace → Except Fault α} {f' : Workspace → Except Fault α'}
    {R : Pairing → α → α' → Prop}
    (h : ∀ q ws ws', p ≤ q → q.Workspaces ws ws' → Outcomes (R q) Eq (f ws) (f' ws')) :
    p.Steps (query f) (query f') R := by
  refine Parallel.get.bind fun q ws ws' hle hws => ?_
  have hfg := h q ws ws' hle hws
  generalize f ws = r at hfg ⊢
  generalize f' ws' = r' at hfg ⊢
  cases hfg with
  | ok ha => exact .pure ha
  | error he => exact .throw (congrArg WorkspaceError.structural he.symm)

theorem steps_ask {f : Graph → Except Fault α} {f' : Graph → Except Fault α'}
    {R : Pairing → α → α' → Prop}
    (h : ∀ q g g', p ≤ q → q.Canvases g g' → Outcomes (R q) Eq (f g) (f' g')) :
    p.Steps (ask f) (ask f') R :=
  steps_query fun _ _ _ hle hws => h _ _ _ hle hws.main

/-- A question about the shape of the main canvas. -/
theorem steps_ask_eq {f : Graph → Except Fault α} (h : ∀ g g', g.SameShape g' → f g' = f g) :
    p.Steps (ask f) (ask f) Same :=
  steps_ask fun _ g g' _ hg => Outcomes.eq_iff.2 (h g g' hg.sameShape).symm

theorem steps_askSocket (s : SocketId) :
    p.Steps (ask (·.socket s)) (ask (·.socket s)) fun _ => Socket.SameSite :=
  steps_ask fun _ _ _ _ hg => hg.sameShape.socket s

theorem steps_askBlock (b : BlockId) : p.Steps (ask (·.block b)) (ask (·.block b)) Blocks :=
  steps_ask fun _ _ _ _ hg => hg.block b

theorem steps_modify {f f' : Workspace → Workspace}
    (h : ∀ ws ws', p.Workspaces ws ws' → p.Workspaces (f ws) (f' ws')) :
    p.Steps (modify f) (modify f') Same :=
  .modify h rfl

theorem run_onGraph {α : Type} (canvas : Canvas) (action : GraphM α) (ws : Workspace) :
    (onGraph canvas action).run ws = ((action.run (ws.graph canvas)).1.mapError .structural,
      ws.setGraph canvas (action.run (ws.graph canvas)).2) := by
  have hget : (get : WorkspaceM Workspace).run ws = (.ok ws, ws) := rfl
  rw [onGraph, run_bind hget]
  generalize action.run (ws.graph canvas) = out
  rcases out with ⟨e | a, g⟩ <;> rfl

theorem steps_onGraph (canvas : Canvas) {x : GraphM α} {x' : GraphM α'} {R : α → α' → Prop}
    (h : p.Edits x x' R) : p.Steps (onGraph canvas x) (onGraph canvas x') fun _ => R := by
  intro ws ws' hws
  obtain ⟨_, _, hout, hg⟩ := h _ _ (hws.canvases canvas)
  refine ⟨p, le_rfl, ?_⟩
  rw [show StateT.run (onGraph canvas x).run ws = _ from run_onGraph canvas x ws,
    show StateT.run (onGraph canvas x').run ws' = _ from run_onGraph canvas x' ws']
  refine ⟨?_, hws.setGraph hg⟩
  change Outcomes R Eq (x.run (ws.graph canvas)).1 (x'.run (ws'.graph canvas)).1 at hout
  dsimp only
  generalize (x.run (ws.graph canvas)).1 = r at hout ⊢
  generalize (x'.run (ws'.graph canvas)).1 = r' at hout ⊢
  cases hout with
  | ok ha => exact .ok ha
  | error he => exact .error (congrArg WorkspaceError.structural he.symm)

theorem steps_onMain {x : GraphM α} {x' : GraphM α'} {R : α → α' → Prop} (h : p.Edits x x' R) :
    p.Steps (onMain x) (onMain x') fun _ => R :=
  steps_onGraph .main h

theorem steps_onPool {f : VarPool → α × VarPool} {f' : VarPool → α' × VarPool}
    {R : Pairing → α → α' → Prop}
    (h : InStep Pools p (f : PoolM α) (f' : PoolM α') R) : p.Steps (onPool f) (onPool f') R := by
  refine .modifyGet fun ws ws' hws => ?_
  obtain ⟨q, hle, hR, hleft, hright⟩ := h ws.pool ws'.pool ⟨hws.left, hws.right⟩
  exact ⟨q, hle, hR, hws.setPool hle hleft hright⟩

theorem steps_requestRender (canvas canvas' : Canvas) (blocks blocks' : BlockSet) :
    p.Steps (requestRender canvas blocks) (requestRender canvas' blocks') Same :=
  steps_modify fun _ _ hws => hws.requestRender canvas canvas' blocks blocks'

theorem steps_requestSweep : p.Steps requestSweep requestSweep Same :=
  steps_modify fun _ _ hws => ⟨hws.left, hws.right, fun canvas => by
    cases canvas with
    | main => exact hws.canvases .main
    | flyout => exact hws.canvases .flyout⟩

/-! ### Inference -/

variable {env env' : Env}

theorem steps_runInference {x : StateM InferState α} {x' : StateM InferState α'}
    {R : Pairing → α → α' → Prop} (h : InStep States p x x' R) :
    p.Steps (runInference x) (runInference x') fun q out out' => R q out.1 out'.1 ∧
      List.Forall₂ (fun n n' => n.1 = n'.1 ∧ q.Types n.2 n'.2) out.2 out'.2 := by
  refine .modifyGet fun ws ws' hws => ?_
  obtain ⟨q, hle, hR, hst⟩ := h (InferM.ofPool ws.pool) (InferM.ofPool ws'.pool)
    ⟨hws.left, hws.right, .nil⟩
  exact ⟨q, hle, ⟨hR, hst.notes⟩, hws.setPool hle hst.left hst.right⟩

theorem steps_warn (root : BlockId) {e e' : TypeError} (he : p.Blames e e') :
    p.Steps (warn root e) (warn root e') Same := by
  refine steps_modify fun ws ws' hws => ?_
  have hwarned : ∀ text text' : String, p.Workspaces
      (ws.setGraph .main (ws.main.modifyBlock (ws.blamed root e)
        fun block => { block with warning := some text }))
      (ws'.setGraph .main (ws'.main.modifyBlock (ws.blamed root e)
        fun block => { block with warning := some text' })) := fun text text' =>
    hws.setGraph <| hws.main.modifyBlock _ fun _ _ hx =>
      ⟨⟨hx.kind, hx.output, hx.inputs⟩, hx.ground, hx.params, rfl⟩
  rw [Workspace.warn, Workspace.warn, Workspace.blamed_eq hws.shape root he]
  exact (hwarned _ _).requestRender .main .main _ _

theorem steps_annotate {types types' : Std.ExtTreeMap Tag Ty} (h : p.Tagged types types') :
    p.Steps (annotate types) (annotate types') Same :=
  (steps_onMain (edits_annotate h)).bind fun _ _ _ _ _ => steps_requestRender _ _ _ _

theorem steps_clearWarnings (roots : List BlockId) :
    p.Steps (clearWarnings roots) (clearWarnings roots) Same := by
  have htrees : p.Steps (roots.mapM fun root => ask (·.component root))
      (roots.mapM fun root => ask (·.component root)) Same :=
    .mapM_eq fun _ _ _ => steps_ask_eq fun _ _ hg => by rw [hg.component_eq]
  refine htrees.bind fun q trees _ _ h => ?_
  subst h
  refine Parallel.get.bind fun q ws ws' _ hws => ?_
  rw [Workspace.functions_eq hws.shape]
  have hbodies : q.Steps (ws.functions.mapM fun f => ask (·.descendants f.1))
      (ws.functions.mapM fun f => ask (·.descendants f.1)) Same :=
    .mapM_eq fun _ _ _ => steps_ask_eq fun _ _ hg => by rw [hg.descendants_eq]
  refine hbodies.bind fun q bodies _ _ h => ?_
  subst h
  exact .forM_eq fun _ b _ => steps_onMain (edits_setWarning b none)

theorem steps_inferGroup (henv : p.Envs env env') (group : List BlockId) :
    p.Steps (inferGroup env group) (inferGroup env' group) Envs := by
  refine Parallel.get.bind fun q ws ws' hq hws => ?_
  rw [Workspace.member?_eq hws.shape]
  have hlits : ∀ m ∈ group.filterMap ws.member?, ∀ l, m.lowered = .ok l → l.term.LitsGround := by
    intro m hm l hl
    obtain ⟨b, -, hm⟩ := List.mem_filterMap.1 hm
    exact Workspace.litsGround_of_member? hws.ground hm hl
  have henv := lasting_envs hq henv
  refine (steps_runInference (inStep_infer hlits henv)).bind fun r out out' hr hout => ?_
  obtain ⟨typing, notes⟩ := out
  obtain ⟨typing', notes'⟩ := out'
  obtain ⟨htyping, -⟩ := hout
  refine (steps_annotate htyping.types).bind fun u _ _ hu _ => ?_
  refine (Parallel.forM htyping.errors ?_).bind fun v _ _ hv _ => .pure ?_
  · rintro v ⟨b, e⟩ ⟨_, e'⟩ _ ⟨rfl, he⟩
    exact steps_warn b he
  · have hle := hu.trans hv
    refine (lasting_envs (hr.trans hle) henv).insertMany ?_
    exact htyping.schemes.imp fun _ _ h => ⟨h.1, lasting_schemes hle h.2⟩

theorem steps_globalEnv : p.Steps globalEnv globalEnv Envs := by
  have hcalls : p.Steps (query (·.callGraph)) (query (·.callGraph)) Same :=
    steps_query fun _ _ _ _ hws => Outcomes.eq_iff.2 (Workspace.callGraph_eq hws.shape).symm
  refine hcalls.bind fun q calls _ _ h => ?_
  subst h
  refine Parallel.get.bind fun q ws ws' _ hws => ?_
  rw [Workspace.declaredEnv_eq hws.shape]
  refine .foldlM (A := Eq) (List.forall₂_refl _) ?_
    (Envs.of_closed (Workspace.closed_declaredEnv hws.ground))
  rintro r group _ env env' _ rfl henv
  exact steps_inferGroup henv group

theorem parallel_inference {l : Lowered} (hlits : l.term.LitsGround) (henv : p.Envs env env')
    (root : BlockId) {expected expected' : Option Ty}
    (hexpected : Option.Rel p.Types expected expected') :
    Parallel States Errors p (l.inference env root expected) (l.inference env' root expected')
      Substs := by
  cases hexpected with
  | none => exact parallel_inferSection hlits henv
  | some ht => exact parallel_inferAs hlits henv root ht .empty

theorem steps_inferTree (henv : p.Envs env env') (root : BlockId) {expected expected' : Option Ty}
    (hexpected : Option.Rel p.Types expected expected') :
    p.Steps (inferTree env root expected) (inferTree env' root expected') Same := by
  rw [inferTree_eq_inferLowered, inferTree_eq_inferLowered]
  refine Parallel.get.bind fun q ws ws' hq hws => ?_
  rw [hws.shape.lower_eq]
  cases hlower : ws.main.lower root with
  | error e => exact steps_warn root rfl
  | ok l =>
      have hlits := Graph.litsGround_lower hws.ground hlower
      have hinference := parallel_inference hlits (lasting_envs hq henv) root
        (lasting_types? hq hexpected)
      refine (steps_runInference hinference).bind fun r out out' hr hout => ?_
      obtain ⟨result, notes⟩ := out
      obtain ⟨result', notes'⟩ := out'
      obtain ⟨hresult, hnotes⟩ := hout
      cases hresult with
      | ok hs => exact steps_annotate (hs.tagged hnotes)
      | error he => exact steps_warn root (blames_of_errors he)

theorem steps_inferSlot (henv : p.Envs env env') (input : SocketId) :
    p.Steps (inferSlot env input) (inferSlot env' input) Same := by
  have hplugged : p.Steps (ask (·.pluggedBlock input)) (ask (·.pluggedBlock input)) Same :=
    steps_ask_eq fun _ _ hg => by rw [hg.pluggedBlock_eq]
  refine hplugged.bind fun q child? _ hq h => ?_
  subst h
  cases child? with
  | none => exact .pure rfl
  | some child =>
      refine Parallel.bind (steps_ask (R := fun r => Option.Rel r.Types)
        fun _ _ _ _ hg => hg.socketTy input) fun r expected expected' hr hexpected => ?_
      exact (steps_inferTree (lasting_envs (hq.trans hr) henv) child hexpected).bind
        fun _ _ _ _ _ => .pure rfl

theorem steps_total {action action' : α → WorkspaceM Nat} {xs : List α}
    (h : ∀ q x, p ≤ q → q.Steps (action x) (action' x) Same) :
    p.Steps (total action xs) (total action' xs) Same := by
  refine .foldlM (A := Eq) (Q := Same) (List.forall₂_refl xs) ?_ rfl
  rintro q x _ sum _ hq rfl rfl
  exact (h q x hq).bind fun _ _ _ _ h => .pure (by rw [h])

theorem steps_inferRoot (henv : p.Envs env env') (root : BlockId) :
    p.Steps (inferRoot env root) (inferRoot env' root) Same := by
  refine (steps_askBlock root).bind fun q x x' hq hx => ?_
  rw [hx.kind, hx.inputs]
  have henv := lasting_envs hq henv
  have htree : q.Steps (do inferTree env root none; return 1)
      (do inferTree env' root none; return 1) Same :=
    (steps_inferTree henv root .none).bind fun _ _ _ _ _ => .pure rfl
  split
  · exact .pure rfl
  · exact .pure rfl
  · exact steps_total fun r input hr => steps_inferSlot (lasting_envs hr henv) input
  · exact htree

/-- The same number of trees, and warnings on the same blocks. -/
structure Reports (_ : Pairing) (r r' : Report) : Prop where
  roots : r'.roots = r.roots
  warned : r'.warnings.map Prod.fst = r.warnings.map Prod.fst

theorem Workspaces.warned_eq (h : p.Workspaces ws ws') :
    ws'.warnings.map Prod.fst = ws.warnings.map Prod.fst := by
  refine (List.forall₂_eq_eq_eq ▸ ?_ : _ = _).symm
  rw [List.forall₂_map_left_iff, List.forall₂_map_right_iff]
  refine List.rel_filterMap ?_ h.main.blocks.toList
  rintro ⟨b, x⟩ ⟨_, x'⟩ ⟨rfl, hx⟩
  have hwarned := hx.warned
  dsimp only
  generalize x.warning = warning at hwarned ⊢
  generalize x'.warning = warning' at hwarned ⊢
  cases warning <;> cases warning' <;> simp at hwarned
  · exact .none
  · exact .some rfl

theorem steps_inferRoots (roots : List BlockId) :
    p.Steps (inferRoots roots) (inferRoots roots) Reports := by
  refine (steps_clearWarnings roots).bind fun q _ _ _ _ => ?_
  refine steps_globalEnv.bind fun q env env' _ henv => ?_
  refine (steps_total fun r root hr => steps_inferRoot (lasting_envs hr henv) root).bind
    fun r count _ _ h => ?_
  subst h
  exact Parallel.get.bind fun _ ws ws' _ hws => .pure ⟨rfl, hws.warned_eq⟩

theorem steps_infer : p.Steps infer infer Reports := by
  refine Parallel.get.bind fun q ws ws' _ hws => ?_
  rw [hws.shape.topBlocks_eq]
  exact steps_inferRoots _

end Pairing

end Plugboard
