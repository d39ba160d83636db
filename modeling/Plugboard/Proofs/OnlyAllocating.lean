import Plugboard.Proofs.LayoutVariables
import Plugboard.Proofs.NotedTypes
import Plugboard.Proofs.ShapeKept

/-!
# Actions that do nothing else to the pool than allocate

Whatever types there are on the blocks, and whether an action succeeds or fails, all that it does to
the pool is to take names from it. Only a sweep gives names back.
-/

namespace Plugboard

variable {α β : Type} {pool : VarPool}

/-- Wherever it is run, the action does nothing but allocate. -/
def PoolM.Allocating (x : PoolM α) : Prop := ∀ pool : VarPool, pool.Extended (x.run pool).2

namespace PoolM.Allocating

theorem pure (a : α) : Allocating (Pure.pure a) := .refl

theorem bind {x : PoolM α} {f : α → PoolM β} (hx : Allocating x) (hf : ∀ a, Allocating (f a)) :
    Allocating (x >>= f) := fun pool => (hx pool).trans (hf _ _)

theorem mapM {f : α → PoolM β} {xs : List α} (h : ∀ a ∈ xs, Allocating (f a)) :
    Allocating (xs.mapM f) := by
  induction xs with
  | nil => exact pure []
  | cons a xs ih =>
      rw [List.forall_mem_cons] at h
      rw [List.mapM_cons]
      exact .bind h.1 fun _ => .bind (ih h.2) fun _ => pure _

end PoolM.Allocating

namespace Layout

open PoolM

theorem allocating_fresh : Allocating fresh := .allocate

theorem allocating_instantiate (scheme : Scheme) : Allocating (instantiate scheme) :=
  Scheme.freshNames_extended scheme.vars

theorem allocating_freshParams (names : List String) : Allocating (freshParams names) :=
  .mapM fun _ _ => .bind allocating_fresh fun _ => .pure _

theorem allocating_ofTy (t : Ty) (arity : Nat) : Allocating (ofTy t arity) := by
  rw [ofTy]
  split
  split
  · refine .bind (.mapM fun x hx => ?_) fun _ => .bind allocating_fresh fun _ => .pure _
    exact (List.eq_of_mem_replicate hx) ▸ allocating_fresh
  · exact .pure _

theorem allocating_operator (scheme? : Option Scheme) (arity : Nat) :
    Allocating (operator scheme? arity) := by
  cases scheme? with
  | none => exact .bind allocating_fresh fun _ => allocating_ofTy _ _
  | some scheme => exact .bind (allocating_instantiate scheme) fun _ => allocating_ofTy _ _

/-- Two types are drawn, and no more. -/
theorem allocating_two {x : PoolM Ty} (hx : Allocating x) (layout : Ty → Ty → Layout) :
    Allocating (do let t ← x; let u ← fresh; return layout t u) :=
  .bind hx fun _ => .bind allocating_fresh fun _ => .pure _

theorem allocating_use : Allocating use := .bind allocating_fresh fun _ => .pure _

theorem allocating_lambda : Allocating lambda := allocating_two allocating_fresh _

theorem allocating_apply : Allocating apply := allocating_two allocating_fresh _

theorem allocating_localLet : Allocating localLet := allocating_two allocating_fresh _

theorem allocating_list (items : Nat) : Allocating (list items) :=
  .bind allocating_fresh fun _ => .pure _

theorem allocating_comprehension (vars : List String) (guards : Nat) :
    Allocating (comprehension vars guards) :=
  .bind (allocating_freshParams vars) fun _ => .bind allocating_fresh fun _ => .pure _

theorem allocating_cases (decl? : Option DataDecl) (arms : List Arm) :
    Allocating (cases decl? arms) := by
  cases decl? with
  | none => exact allocating_two allocating_fresh _
  | some decl => exact allocating_two (allocating_instantiate _) _

theorem allocating_function (params : List String) : Allocating (function params) :=
  .bind (allocating_freshParams params) fun _ => .bind allocating_fresh fun _ => .pure _

theorem allocating_statement (slots : List Ty) : Allocating (statement slots) :=
  .bind (.mapM fun _ _ => allocating_instantiate _) fun _ => .pure _

end Layout

namespace InferM

theorem drawn_onPool {f : VarPool → α × VarPool} (h : ∀ pool : VarPool, pool.Extended (f pool).2) :
    Preserves (pool.Extended ·.pool) (onPool f) :=
  .modifyGet fun _ hst => hst.trans (h _)

theorem drawn_note (tag : Option Tag) (t : Ty) : Preserves (pool.Extended ·.pool) (note tag t) := by
  cases tag with
  | none => exact .pure _
  | some tag => exact .modify fun _ => id

theorem drawn_unifyAt (tag : Option Tag) (a b : Ty) :
    Preserves (pool.Extended ·.pool) (unifyAt tag a b) := by
  rw [unifyAt]
  cases unify a b with
  | ok s => exact .pure s
  | error cause => exact .throw _

end InferM

open InferM

theorem Term.drawn_infer (e : Term) (env : Env) :
    Preserves (pool.Extended ·.pool) (e.infer env) := by
  have hfresh : Preserves (pool.Extended ·.pool) InferM.freshVar := drawn_onPool .allocate
  have hanswer : ∀ (tag : Option Tag) (t : Ty) (s : Subst), Preserves (pool.Extended ·.pool)
      (do note tag t; return (s, t)) := fun tag t _ => .bind (drawn_note tag t) fun _ => .pure _
  induction e generalizing env with
  | var name tag =>
      rw [infer]
      cases env.lookup name with
      | none => exact .throw _
      | some scheme =>
          exact .bind (drawn_onPool (Scheme.freshNames_extended scheme.vars)) fun _ =>
            hanswer _ _ _
  | lit t tag => exact hanswer _ _ _
  | lam param body tag ih => exact .bind hfresh fun _ => .bind (ih _) fun _ => hanswer _ _ _
  | app func arg tag ihf iha =>
      exact .bind (ihf _) fun _ => .bind (iha _) fun _ => .bind hfresh fun _ =>
        .bind (drawn_unifyAt _ _ _) fun _ => hanswer _ _ _
  | letIn name bound body tag ihb ihe =>
      exact .bind (ihb _) fun _ => .bind (ihe _) fun _ => hanswer _ _ _

namespace Lowered

theorem drawn_inferAs (l : Lowered) (env : Env) (block : BlockId) (expected : Ty)
    (before : Subst) : Preserves (pool.Extended ·.pool) (l.inferAs env block expected before) :=
  .bind (.mapM fun _ _ => .bind (drawn_onPool .allocate) fun _ => .pure _) fun _ =>
    .bind (Term.drawn_infer _ _) fun _ => .bind (drawn_unifyAt _ _ _) fun _ => .pure _

theorem drawn_inference (l : Lowered) (env : Env) (root : BlockId) (expected : Option Ty) :
    Preserves (pool.Extended ·.pool) (l.inference env root expected) := by
  cases expected with
  | none => exact .bind (Term.drawn_infer _ _) fun _ => .pure _
  | some t => exact drawn_inferAs l env root t .empty

end Lowered

namespace FunctionGroup

theorem extended_freshVars (members : List Member) (st : InferState) :
    st.pool.Extended ((members.mapM fun _ => freshVar).run st).2.pool := by
  induction members generalizing st with
  | nil => exact .refl _
  | cons m members ih =>
      rw [List.mapM_cons, StateT.run_bind]
      exact (VarPool.Extended.allocate st.pool).trans (ih { st with pool := st.pool.allocate.2 })

theorem extended_inferBodies (env : Env) (bodies : List (Member × Ty)) (s : Subst)
    (st : InferState) : st.pool.Extended ((inferBodies env bodies s).run st).2.pool := by
  induction bodies generalizing s st with
  | nil => exact .refl _
  | cons body bodies ih =>
      obtain ⟨m, self⟩ := body
      have hbody : Preserves (st.pool.Extended ·.pool) (inferBody env m self s) := by
        rw [inferBody]
        cases m.lowered with
        | ok l => exact l.drawn_inferAs env m.block self s
        | error e => exact .throw _
      -- whatever comes of the first body, the rest goes on with the pool it has left
      have hattempt : st.pool.Extended ((attempt (inferBody env m self s)).run st).2.pool := by
        have hends := hbody st (.refl _)
        rw [run_attempt]
        unfold Ends at hends
        generalize (inferBody env m self s).run st = out at hends ⊢
        obtain ⟨e | s', st'⟩ := out <;> exact hends
      rw [inferBodies, StateT.run_bind]
      generalize (attempt (inferBody env m self s)).run st = out at hattempt ⊢
      obtain ⟨e | s', st'⟩ := out <;> exact hattempt.trans (ih _ _)

theorem extended_infer (env : Env) (members : List Member) (st : InferState) :
    st.pool.Extended ((infer env members).run st).2.pool := by
  rw [run_infer_eq]
  exact ((extended_freshVars members st).trans (extended_inferBodies _ _ _ _)).trans
    (extended_bindings _ _ _ _)

end FunctionGroup

namespace WorkspaceM

open Workspace PoolM

theorem drawn_onGraph (canvas : Canvas) (action : GraphM α) :
    Preserves (pool.Extended ·.pool) (onGraph canvas action) := by
  intro ws hws
  rw [ends_onGraph]
  unfold Ends
  rcases action.run (ws.graph canvas) with ⟨e | a, g⟩ <;> cases canvas <;> exact hws

theorem drawn_onMain (action : GraphM α) : Preserves (pool.Extended ·.pool) (onMain action) :=
  drawn_onGraph .main action

theorem drawn_onPool {x : PoolM α} (h : Allocating x) :
    Preserves (pool.Extended ·.pool) (onPool x) :=
  .modifyGet fun _ hws => hws.trans (h _)

theorem drawn_runInference {action : StateM InferState α}
    (h : ∀ st : InferState, st.pool.Extended (action.run st).2.pool) :
    Preserves (pool.Extended ·.pool) (runInference action) :=
  .modifyGet fun _ hws => hws.trans (h (ofPool _))

theorem drawn_requestRender (canvas : Canvas) (blocks : BlockSet) :
    Preserves (pool.Extended ·.pool) (requestRender canvas blocks) :=
  .modify fun _ hws => by cases canvas <;> exact hws

theorem drawn_requestSweep : Preserves (pool.Extended ·.pool) requestSweep :=
  .modify fun _ => id

theorem drawn_warn (root : BlockId) (e : TypeError) :
    Preserves (pool.Extended ·.pool) (warn root e) :=
  .modify fun _ => id

theorem drawn_annotate (types : Std.ExtTreeMap Tag Ty) :
    Preserves (pool.Extended ·.pool) (annotate types) :=
  .bind (drawn_onMain _) fun _ => drawn_requestRender _ _

theorem drawn_clearWarnings (roots : List BlockId) :
    Preserves (pool.Extended ·.pool) (clearWarnings roots) :=
  .bind (.mapM fun _ _ => preserves_ask _) fun _ => .bind .get fun _ =>
    .bind (.mapM fun _ _ => preserves_ask _) fun _ => .forM fun _ _ => drawn_onMain _

theorem drawn_inferGroup (env : Env) (group : List BlockId) :
    Preserves (pool.Extended ·.pool) (inferGroup env group) :=
  .bind .get fun _ => .bind (drawn_runInference (FunctionGroup.extended_infer env _)) fun _ =>
    .bind (drawn_annotate _) fun _ => .bind (.forM fun _ _ => drawn_warn _ _) fun _ => .pure _

theorem drawn_globalEnv : Preserves (pool.Extended ·.pool) globalEnv :=
  .bind (preserves_query _) fun _ => .bind .get fun _ =>
    .foldlM _ fun _ _ _ => drawn_inferGroup _ _

theorem drawn_inferTree (env : Env) (root : BlockId) (expected : Option Ty) :
    Preserves (pool.Extended ·.pool) (inferTree env root expected) := by
  intro ws hws
  cases hlower : ws.main.lower root with
  | error e => exact (ends_inferTree_unlowered hlower).2 (drawn_warn _ _ ws hws)
  | ok l =>
      have hends := l.drawn_inference env root expected (ofPool ws.pool) hws
      rw [ends_inferTree_iff hlower]
      unfold Ends at hends
      rcases hrun : (l.inference env root expected).run (ofPool ws.pool) with ⟨e | s, st⟩ <;>
        rw [hrun] at hends
      · exact drawn_warn root e _ hends
      · exact drawn_annotate _ _ hends

theorem drawn_inferSlot (env : Env) (input : SocketId) :
    Preserves (pool.Extended ·.pool) (inferSlot env input) := by
  refine .bind (preserves_ask _) fun child? => ?_
  cases child? with
  | none => exact .pure _
  | some child =>
      exact .bind (preserves_ask _) fun _ => .bind (drawn_inferTree _ _ _) fun _ => .pure _

theorem drawn_inferRoot (env : Env) (root : BlockId) :
    Preserves (pool.Extended ·.pool) (inferRoot env root) := by
  refine .bind (preserves_ask _) fun block => ?_
  split
  · exact .pure _
  · exact .pure _
  · exact preserves_total (drawn_inferSlot env) _
  · exact .bind (drawn_inferTree env root none) fun _ => .pure _

theorem drawn_inferRoots (roots : List BlockId) :
    Preserves (pool.Extended ·.pool) (inferRoots roots) :=
  .bind (drawn_clearWarnings roots) fun _ => .bind drawn_globalEnv fun _ =>
    .bind (preserves_total (drawn_inferRoot _) roots) fun _ => .bind .get fun _ => .pure _

theorem drawn_infer : Preserves (pool.Extended ·.pool) infer :=
  .bind .get fun _ => drawn_inferRoots _

theorem drawn_layoutFor (kind : BlockKind) :
    Preserves (pool.Extended ·.pool) (layoutFor kind) := by
  cases kind with
  | literal value ty => exact .pure _
  | operator name arity =>
      exact .bind (preserves_query _) fun _ => drawn_onPool (Layout.allocating_operator _ _)
  | «variable» name => exact drawn_onPool Layout.allocating_use
  | lambda param => exact drawn_onPool Layout.allocating_lambda
  | apply => exact drawn_onPool Layout.allocating_apply
  | localLet name => exact drawn_onPool Layout.allocating_localLet
  | list items => exact drawn_onPool (Layout.allocating_list items)
  | comprehension vars guards => exact drawn_onPool (Layout.allocating_comprehension vars guards)
  | cases typeName arms =>
      exact .bind .get fun _ => drawn_onPool (Layout.allocating_cases _ arms)
  | function name params => exact drawn_onPool (Layout.allocating_function params)
  | data decl => exact .pure _
  | statement name =>
      rw [layoutFor]
      split
      · exact drawn_onPool (Layout.allocating_statement _)
      · exact .throw _

theorem drawn_addBlock (canvas : Canvas) (kind : BlockKind) :
    Preserves (pool.Extended ·.pool) (addBlock canvas kind) :=
  .bind (drawn_layoutFor kind) fun _ => .bind (drawn_onGraph _ _) fun _ =>
    .bind (drawn_requestRender _ _) fun _ => .pure _

theorem drawn_addOperator (name : String) :
    Preserves (pool.Extended ·.pool) (addOperator name) := by
  refine .bind .get fun ws => ?_
  split
  · exact drawn_addBlock _ _
  · exact .throw _

theorem drawn_addCase (typeName : String) :
    Preserves (pool.Extended ·.pool) (addCase typeName) := by
  refine .bind .get fun ws => ?_
  split
  · exact drawn_addBlock _ _
  · exact .throw _

theorem drawn_renew (b : BlockId) : Preserves (pool.Extended ·.pool) (renew b) :=
  .bind (preserves_ask _) fun _ => .bind (drawn_layoutFor _) fun _ => drawn_onMain _

theorem drawn_reset (members : BlockSet) : Preserves (pool.Extended ·.pool) (reset members) :=
  .bind (.mapM fun _ _ => drawn_renew _) fun _ => .bind (preserves_ask _) fun _ =>
    .bind (drawn_onMain _) fun _ => .bind (drawn_requestRender _ _) fun _ => .pure _

theorem drawn_refresh (blocks : List BlockId) :
    Preserves (pool.Extended ·.pool) (refresh blocks) :=
  .bind (preserves_ask _) fun _ => .bind (drawn_reset _) fun _ => .bind .get fun _ =>
    .bind (.mapM fun _ _ => preserves_ask _) fun _ => .bind (drawn_inferRoots _) fun _ => .pure _

theorem drawn_tyOrFresh (s : SocketId) : Preserves (pool.Extended ·.pool) (tyOrFresh s) := by
  refine .bind (preserves_ask _) fun ty => ?_
  cases ty with
  | none => exact drawn_onPool (x := VarPool.allocateTy) .allocate
  | some t => exact .pure t

theorem drawn_orient (a b : SocketId) : Preserves (pool.Extended ·.pool) (orient a b) := by
  refine .bind (preserves_ask _) fun first => .bind (preserves_ask _) fun second => ?_
  split
  · exact .pure _
  · exact .pure _
  · exact .throw _

theorem drawn_requireUnplugged (s : SocketId) :
    Preserves (pool.Extended ·.pool) (requireUnplugged s) := by
  refine .bind (preserves_ask _) fun socket => ?_
  split
  · exact .throw _
  · exact .pure _

theorem drawn_connect (a b : SocketId) : Preserves (pool.Extended ·.pool) (connect a b) := by
  refine .bind (drawn_orient a b) fun sockets => ?_
  obtain ⟨output, input⟩ := sockets
  refine .bind (drawn_requireUnplugged output) fun _ => ?_
  refine .bind (drawn_requireUnplugged input) fun _ => ?_
  refine .bind (preserves_ask _) fun socket => .bind (preserves_ask _) fun cycle => ?_
  dsimp only
  split
  · exact .throw _
  refine .bind (drawn_tyOrFresh output) fun t => .bind (drawn_tyOrFresh input) fun u => ?_
  split
  · exact .throw _
  · exact .bind (drawn_onMain _) fun _ => .bind (preserves_ask _) fun _ =>
      .bind (.modify fun _ => id) fun _ => .bind (drawn_requestRender _ _) fun _ =>
        .bind drawn_requestSweep fun _ => .pure _

theorem drawn_plug (child parent : BlockId) (slot : String) :
    Preserves (pool.Extended ·.pool) (plug child parent slot) := by
  refine .bind (preserves_ask _) fun block => ?_
  split
  · exact .throw _
  · exact .bind (preserves_ask _) fun _ => drawn_connect _ _

theorem drawn_pluggedOutput (parent child : BlockId) :
    Preserves (pool.Extended ·.pool) (pluggedOutput parent child) := by
  refine .bind (preserves_ask _) fun block => ?_
  split
  · exact .throw _
  · refine .bind (preserves_ask _) fun plugged => ?_
    split
    · split
      · exact .pure _
      · exact .throw _
    · exact .throw _

theorem drawn_unplug (parent child : BlockId) :
    Preserves (pool.Extended ·.pool) (unplug parent child) :=
  .bind (drawn_pluggedOutput parent child) fun _ => .bind (drawn_onMain _) fun _ =>
    .bind (drawn_refresh _) fun _ => drawn_requestSweep

theorem drawn_removeBlock (b : BlockId) : Preserves (pool.Extended ·.pool) (removeBlock b) :=
  .bind (preserves_ask _) fun _ => .bind (drawn_onMain _) fun _ =>
    .bind (drawn_refresh _) fun _ => drawn_requestSweep

theorem drawn_setKind (b : BlockId) (f : BlockKind → BlockKind) :
    Preserves (pool.Extended ·.pool) (setKind b f) :=
  drawn_onMain _

theorem drawn_finishEdit (touched : List BlockId) :
    Preserves (pool.Extended ·.pool) (finishEdit touched) := by
  refine .bind (preserves_ask _) fun _ => .bind (drawn_reset _) fun _ => ?_
  refine .bind (preserves_ask _) fun _ => ?_
  have hrest : Preserves (pool.Extended ·.pool) (do
      let report ← infer; requestSweep; return report) :=
    .bind drawn_infer fun _ => .bind drawn_requestSweep fun _ => .pure _
  dsimp only
  split
  · exact .bind (drawn_reset _) fun _ => hrest
  · exact hrest

theorem drawn_edit (b : BlockId) (f : BlockKind → Except String BlockKind) :
    Preserves (pool.Extended ·.pool) (edit b f) := by
  refine .bind (preserves_ask _) fun block => ?_
  split
  · exact .throw _
  · exact .bind (drawn_setKind b _) fun _ => drawn_finishEdit _

theorem drawn_functionAt (b : BlockId) : Preserves (pool.Extended ·.pool) (functionAt b) := by
  refine .bind (preserves_ask _) fun block => ?_
  split
  · exact .pure _
  · exact .throw _

theorem drawn_renameParameter (b : BlockId) (old new : String) :
    Preserves (pool.Extended ·.pool) (renameParameter b old new) := by
  refine .bind (drawn_functionAt b) fun _ => ?_
  dsimp only
  split
  · exact .throw _
  · refine .bind (preserves_ask _) fun uses => ?_
    split
    · exact .throw _
    · exact .bind (drawn_setKind b _) fun _ => .bind (.forM fun _ _ => drawn_setKind _ _) fun _ =>
        drawn_finishEdit _

theorem drawn_addParameter (b : BlockId) (param : String) :
    Preserves (pool.Extended ·.pool) (addParameter b param) := by
  refine .bind (drawn_functionAt b) fun _ => ?_
  dsimp only
  split
  · exact .throw _
  · exact .bind (drawn_setKind b _) fun _ => .bind .get fun _ =>
      .bind (.forM fun _ _ => drawn_setKind _ _) fun _ => drawn_finishEdit _

theorem drawn_plugArgument (caller : BlockId) (index : Nat) (output : Option SocketId) :
    Preserves (pool.Extended ·.pool) (plugArgument caller index output) := by
  cases output with
  | none => exact .pure _
  | some output => exact .bind (preserves_ask _) fun _ => drawn_onMain _

theorem drawn_removeArgument (caller : BlockId) (inputs : List SocketId) (index : Nat) :
    Preserves (pool.Extended ·.pool) (removeArgument caller inputs index) := by
  refine .bind (.mapM fun _ _ => drawn_onMain _) fun plugged => ?_
  have hrest : ∀ removed : Option BlockId, Preserves (pool.Extended ·.pool) (do
      setKind caller (·.mapArity (· - 1))
      let _ ← renew caller
      (plugged.eraseIdx index).zipIdx.forM fun arg => plugArgument caller arg.2 arg.1
      return removed) := fun removed =>
    .bind (drawn_setKind caller _) fun _ => .bind (drawn_renew caller) fun _ =>
      .bind (.forM fun _ _ => drawn_plugArgument _ _ _) fun _ => .pure _
  cases plugged[index]?.join with
  | none => exact .bind (.pure _) hrest
  | some output => exact .bind (.map (.map (preserves_ask _))) hrest

theorem drawn_removeParameter (b : BlockId) (param : String) :
    Preserves (pool.Extended ·.pool) (removeParameter b param) := by
  refine .bind (drawn_functionAt b) fun _ => ?_
  dsimp only
  split
  · exact .throw _
  · refine .bind .get fun ws => .bind (.mapM fun caller _ => ?_) fun calls => ?_
    · exact .bind (.mapM fun _ _ => preserves_ask _) fun _ => .pure _
    · refine .bind (drawn_setKind b _) fun _ => .bind (.mapM fun call _ => ?_) fun _ =>
        drawn_finishEdit _
      exact .bind (drawn_removeArgument call.1 call.2 _) fun _ => .pure _

end WorkspaceM

end Plugboard
