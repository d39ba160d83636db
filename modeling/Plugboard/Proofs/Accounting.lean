import Plugboard.Proofs.KeptTypes
import Plugboard.Proofs.NotedTypes
import Plugboard.Proofs.ShapeKept

/-!
# Actions that keep account of type variables

Between two collections the pool is only allocated from, and all types on both canvases have their
variables among the names in use: every type that an action puts on a block is drawn for it or
made of types that were there already.
-/

namespace Plugboard

/-- The pool has been extended from `pool`, and the names in use account for all types. -/
structure Workspace.Accounted (pool : VarPool) (ws : Workspace) : Prop where
  extended : pool.Extended ws.pool
  distinct : ws.pool.Distinct
  every : ∀ canvas, (ws.graph canvas).Every (·.Over ws.pool.Uses) BlockKind.Ground

namespace Workspace.Accounted

variable {pool : VarPool} {ws ws' : Workspace}

theorem main (h : ws.Accounted pool) : ws.main.Every (·.Over ws.pool.Uses) BlockKind.Ground :=
  h.every .main

theorem ground (h : ws.Accounted pool) : ws.main.Ground := h.main.kind

/-- Nothing depends on where the pool has been extended from. -/
theorem self (h : ws.Accounted pool) : ws.Accounted ws.pool := ⟨.refl _, h.distinct, h.every⟩

/-- More names are allocated. -/
theorem extend (h : ws.Accounted pool) {pool' : VarPool} (hext : ws.pool.Extended pool') :
    Accounted pool { ws with pool := pool' } where
  extended := h.extended.trans hext
  distinct := hext.distinct h.distinct
  every canvas := (h.every canvas).imp (fun _ ht => ht.mono fun _ => hext.keeps h.distinct)
    fun _ => id

theorem setGraph (h : ws.Accounted pool) {canvas : Canvas} {g : Graph}
    (hg : g.Every (·.Over ws.pool.Uses) BlockKind.Ground) :
    Accounted pool (ws.setGraph canvas g) := by
  cases canvas with
  | main =>
      refine ⟨h.extended, h.distinct, fun canvas => ?_⟩
      cases canvas with
      | main => exact hg
      | flyout => exact h.every .flyout
  | flyout =>
      refine ⟨h.extended, h.distinct, fun canvas => ?_⟩
      cases canvas with
      | main => exact h.every .main
      | flyout => exact hg

theorem setMain (h : ws.Accounted pool) {g : Graph}
    (hg : g.Every (·.Over ws.pool.Uses) BlockKind.Ground) :
    Accounted pool (ws.setGraph .main g) :=
  h.setGraph hg

theorem requestRender (h : ws.Accounted pool) (canvas : Canvas) (blocks : BlockSet) :
    Accounted pool (ws.requestRender canvas blocks) := by
  cases canvas <;> exact ⟨h.extended, h.distinct, h.every⟩

theorem requestSweep (h : ws.Accounted pool) : Accounted pool ws.requestSweep :=
  ⟨h.extended, h.distinct, h.every⟩

theorem substitute (h : ws.Accounted pool) (canvas : Canvas) {s : Subst}
    (hs : s.Within ws.pool.Uses) : Accounted pool (ws.substitute canvas s) :=
  (h.setGraph ((h.every canvas).applyTo (fun _ ht => hs.apply ht) _)).requestRender _ _

end Workspace.Accounted

namespace WorkspaceM

open Workspace

variable {α : Type} {pool : VarPool}

theorem accounted_onGraph {canvas : Canvas} {action : GraphM α}
    (h : ∀ scope : String → Prop, Preserves (Graph.Every (·.Over scope) BlockKind.Ground) action) :
    Preserves (Accounted pool) (onGraph canvas action) := fun _ hws =>
  ends_onGraph.2 <| (h _ _ (hws.every canvas)).imp (fun _ _ hg => hws.setGraph hg)
    fun _ hg => hws.setGraph hg

theorem accounted_onMain {action : GraphM α}
    (h : ∀ scope : String → Prop, Preserves (Graph.Every (·.Over scope) BlockKind.Ground) action) :
    Preserves (Accounted pool) (onMain action) :=
  accounted_onGraph h

theorem accounted_requestSweep : Preserves (Accounted pool) requestSweep :=
  .modify fun _ hws => hws.requestSweep

theorem accounted_warn (root : BlockId) (e : TypeError) :
    Preserves (Accounted pool) (warn root e) := by
  refine .modify fun ws hws => ?_
  have hmain := hws.main.modifyBlock (ws.blamed root e)
    (f := fun block => { block with warning := some (ws.settings.warning ++ ": " ++ e.message) })
    (fun _ => hws.main.kind) fun _ hb _ _ ht => hws.main.param hb (by exact ht)
  exact (hws.setMain hmain).requestRender .main _

theorem accounted_clearWarnings (roots : List BlockId) :
    Preserves (Accounted pool) (clearWarnings roots) := by
  refine .bind (.mapM fun _ _ => preserves_ask _) fun trees => .bind .get fun ws => ?_
  refine .bind (.mapM fun _ _ => preserves_ask _) fun bodies => .forM fun b _ => ?_
  exact accounted_onMain fun _ => GraphM.every_updateBlock b (fun _ => id) fun _ h => h

variable {ws : Workspace}

theorem accounted_annotate (hws : ws.Accounted pool) {types : Std.ExtTreeMap Tag Ty}
    (htypes : ∀ (tag : Tag) (t : Ty), types[tag]? = some t → t.Over ws.pool.Uses) :
    Ends (annotate types) ws (fun _ => Accounted pool) (Accounted pool) := by
  rw [annotate, ends_bind, ends_onMain]
  exact (GraphM.every_annotate htypes ws.main hws.main).imp
    (fun members g hg => (hws.setMain hg).requestRender .main members)
    fun g hg => hws.setMain hg

theorem accounted_inferGroup (hws : ws.Accounted pool) {env : Env} (henv : env.Closed)
    (group : List BlockId) :
    Ends (inferGroup env group) ws (fun env' ws' => env'.Closed ∧ ws'.Accounted pool)
      (Accounted pool) := by
  rw [inferGroup, ends_bind, ends_get, ends_bind]
  have hlits : ∀ m ∈ group.filterMap ws.member?, ∀ l, m.lowered = .ok l → l.term.LitsGround := by
    intro m hm l hl
    obtain ⟨b, -, hm⟩ := List.mem_filterMap.1 hm
    exact litsGround_of_member? hws.ground hm hl
  obtain ⟨hext, htypes⟩ := FunctionGroup.run_infer henv hlits hws.distinct.keeps
  rw [VarPool.own_false] at htypes
  refine ends_runInference.2 ?_
  dsimp only
  rw [ends_bind]
  refine (accounted_annotate (hws.extend hext) htypes).imp (fun _ ws₁ hws₁ => ?_) fun _ => id
  rw [ends_bind]
  refine (Preserves.forM (fun _ _ => accounted_warn _ _) ws₁ hws₁).imp (fun _ ws₂ hws₂ => ?_)
    fun _ => id
  exact ⟨henv.insertMany (FunctionGroup.closed_schemes henv _ _), hws₂⟩

theorem accounted_globalEnv (hws : ws.Accounted pool) :
    Ends globalEnv ws (fun env ws' => env.Closed ∧ ws'.Accounted pool) (Accounted pool) := by
  rw [globalEnv, ends_bind, ends_query]
  cases ws.callGraph with
  | error e => exact hws
  | ok calls =>
      refine ends_bind.2 (ends_get.2 ?_)
      exact Ends.foldlM (I := fun env ws' => Env.Closed env ∧ Accounted pool ws')
        (fun group _ env ws' ⟨henv, hws'⟩ => accounted_inferGroup hws' henv group)
        ⟨closed_declaredEnv hws.ground, hws⟩

theorem accounted_inferTree (hws : ws.Accounted pool) {env : Env} (henv : env.Closed)
    (root : BlockId) {expected : Option Ty} (hexpected : ∀ t ∈ expected, t.Over ws.pool.Uses) :
    Ends (inferTree env root expected) ws (fun _ => Accounted pool) (Accounted pool) := by
  cases hlower : ws.main.lower root with
  | error e => exact (ends_inferTree_unlowered hlower).2 (accounted_warn _ _ ws hws)
  | ok l =>
      have hown : ∀ t ∈ expected, t.Over ((InferM.ofPool ws.pool).pool.Own fun _ => False) :=
        fun t ht => (hexpected t ht).mono fun _ hv => ⟨hv, id⟩
      have hends := l.ends_inference hws.distinct.keeps (.of_closed henv _)
        (Graph.litsGround_lower hws.ground hlower) root hown
      rw [ends_inferTree_iff hlower]
      unfold Ends at hends
      rcases hrun : (l.inference env root expected).run (InferM.ofPool ws.pool) with ⟨e | s, st⟩ <;>
        rw [hrun] at hends
      · exact accounted_warn root e _ (hws.extend hends.pool)
      · have hnotes := hends.2.notes fun n hn => (List.not_mem_nil hn).elim
        exact accounted_annotate (hws.extend hends.2.pool) fun _ _ ht =>
          (InferM.over_of_resolve hends.1 hnotes ht).mono fun _ => And.left

theorem accounted_inferSlot {env : Env} (henv : env.Closed) (input : SocketId) :
    Preserves (Accounted pool) (inferSlot env input) := by
  refine .bind (preserves_ask _) fun child? => ?_
  cases child? with
  | none => exact .pure _
  | some child =>
      intro ws hws
      rw [ends_bind, ends_ask]
      cases hty : ws.main.socketTy input with
      | error e => exact hws
      | ok expected =>
          have hexpected : ∀ t ∈ expected, t.Over ws.pool.Uses := by
            rintro t rfl
            exact hws.main.over_socketTy hty
          refine ends_bind.2 ?_
          exact (accounted_inferTree hws henv child hexpected).imp (fun _ _ => id) fun _ => id

theorem accounted_inferRoot {env : Env} (henv : env.Closed) (root : BlockId) :
    Preserves (Accounted pool) (inferRoot env root) := by
  refine .bind (preserves_ask _) fun block => ?_
  have htree : Preserves (Accounted pool) (do inferTree env root none; return 1) :=
    .bind (fun ws hws => accounted_inferTree hws henv root (by simp)) fun _ => .pure _
  split
  · exact .pure _
  · exact .pure _
  · exact preserves_total (accounted_inferSlot henv) _
  · exact htree

theorem accounted_inferRoots (roots : List BlockId) :
    Preserves (Accounted pool) (inferRoots roots) := by
  refine .bind (accounted_clearWarnings roots) fun _ => fun ws hws => ?_
  rw [ends_bind]
  refine (accounted_globalEnv hws).imp (fun env ws' ⟨henv, hws'⟩ => ?_) fun _ => id
  exact Preserves.bind (preserves_total (accounted_inferRoot henv) roots)
    (fun _ => .bind .get fun _ => .pure _) ws' hws'

theorem accounted_infer : Preserves (Accounted pool) infer :=
  .bind .get fun _ => accounted_inferRoots _

theorem accounted_layoutFor (hws : ws.Accounted pool) {kind : BlockKind} (hkind : kind.Ground) :
    Ends (layoutFor kind) ws
      (fun layout ws' => ws'.Accounted pool ∧ layout.Every (·.Over ws'.pool.Uses))
      (Accounted pool) := by
  refine (every_layoutFor hws.ground hws.distinct.keeps hkind).imp
    (fun layout ws' ⟨pool', hws', hext, hlayout⟩ => ?_) fun ws' hws' => hws' ▸ hws
  subst hws'
  rw [VarPool.own_false] at hlayout
  exact ⟨hws.extend hext, hlayout⟩

theorem accounted_addBlock (canvas : Canvas) {kind : BlockKind} (hkind : kind.Ground) :
    Preserves (Accounted pool) (addBlock canvas kind) := by
  intro ws hws
  rw [addBlock, ends_bind]
  refine (accounted_layoutFor hws hkind).imp (fun layout ws' ⟨hws', hlayout⟩ => ?_) fun _ => id
  rw [ends_bind, ends_onGraph]
  exact (hws'.setGraph ((hws'.every canvas).addBlock hkind hlayout)).requestRender _ _

theorem accounted_addOperator (name : String) :
    Preserves (Accounted pool) (addOperator name) := by
  refine .bind .get fun ws => ?_
  cases ws.calleeArity? name with
  | none => exact .throw _
  | some arity => exact accounted_addBlock .main trivial

theorem accounted_addCase (typeName : String) : Preserves (Accounted pool) (addCase typeName) := by
  refine .bind .get fun ws => ?_
  cases ws.declaration? typeName with
  | none => exact .throw _
  | some decl => exact accounted_addBlock .main trivial

theorem accounted_renew (b : BlockId) : Preserves (Accounted pool) (renew b) := by
  intro ws hws
  rw [renew, ends_bind, ends_ask]
  cases hblock : ws.main.block b with
  | error e => exact hws
  | ok block =>
      refine ends_bind.2 ?_
      refine (accounted_layoutFor hws (hws.ground (Graph.block_eq_ok.1 hblock))).imp
        (fun layout ws' ⟨hws', hlayout⟩ => ?_) fun _ => id
      rw [ends_onMain]
      exact (GraphM.every_replaceSockets b hlayout ws'.main hws'.main).imp
        (fun _ g hg => hws'.setMain hg)
        fun g hg => hws'.setMain hg

theorem accounted_reset (members : BlockSet) : Preserves (Accounted pool) (reset members) := by
  refine .bind (.mapM fun b _ => accounted_renew b) fun detached => fun ws hws => ?_
  rw [ends_bind, ends_ask]
  cases hs : ws.main.linkAgreement (ws.main.linksWithin members) with
  | error e => exact hws
  | ok s =>
      have hwithin := hws.main.linkAgreement_within hs
      have hmain := hws.main.applyTo (fun _ ht => hwithin.apply ht) members
      refine ends_bind.2 (ends_onMain.2 ?_)
      exact (hws.setMain hmain).requestRender .main members

theorem accounted_componentsOf (blocks : List BlockId) :
    Preserves (Accounted pool) (componentsOf blocks) :=
  preserves_ask _

theorem accounted_refresh (blocks : List BlockId) :
    Preserves (Accounted pool) (refresh blocks) :=
  .bind (accounted_componentsOf blocks) fun members => .bind (accounted_reset members) fun _ =>
    .bind .get fun _ => .bind (.mapM fun _ _ => preserves_ask _) fun _ =>
      .bind (accounted_inferRoots _) fun _ => .pure _

theorem accounted_tyOrFresh (hws : ws.Accounted pool) (s : SocketId) :
    Ends (tyOrFresh s) ws (fun t ws' => ws'.Accounted pool ∧ t.Over ws'.pool.Uses ∧
      ws.pool.Extended ws'.pool) (Accounted pool) := by
  rw [tyOrFresh, ends_bind, ends_ask]
  cases hty : ws.main.socketTy s with
  | error e => exact hws
  | ok t? =>
      cases t? with
      | some t => exact ⟨hws, hws.main.over_socketTy hty, .refl _⟩
      | none =>
          exact ⟨hws.extend (.allocate _), .var (VarPool.allocate_issues hws.distinct).used,
            .allocate _⟩

theorem accounted_orient (a b : SocketId) : Preserves (Accounted pool) (orient a b) := by
  refine .bind (preserves_ask _) fun first => .bind (preserves_ask _) fun second => ?_
  split
  · exact .pure _
  · exact .pure _
  · exact .throw _

theorem accounted_requireUnplugged (s : SocketId) :
    Preserves (Accounted pool) (requireUnplugged s) := by
  refine .bind (preserves_ask _) fun socket => ?_
  split
  · exact .throw _
  · exact .pure _

theorem accounted_connect (a b : SocketId) : Preserves (Accounted pool) (connect a b) := by
  refine .bind (accounted_orient a b) fun ⟨output, input⟩ => ?_
  refine .bind (accounted_requireUnplugged output) fun _ => ?_
  refine .bind (accounted_requireUnplugged input) fun _ => ?_
  refine .bind (preserves_ask _) fun socket => .bind (preserves_ask _) fun cycle => ?_
  dsimp only
  split
  · exact .throw _
  intro ws hws
  rw [ends_bind]
  refine (accounted_tyOrFresh hws output).imp (fun t ws₁ ⟨hws₁, ht, _⟩ => ?_) fun _ => id
  rw [ends_bind]
  refine (accounted_tyOrFresh hws₁ input).imp (fun u ws₂ ⟨hws₂, hu, hext⟩ => ?_) fun _ => id
  replace ht : t.Over ws₂.pool.Uses := ht.mono fun _ => hext.keeps hws₁.distinct
  cases hunify : unify t u with
  | error e => exact hws₂
  | ok s =>
      have hs : s.Within ws₂.pool.Uses := (unify_eliminates hunify).within fun v hv =>
        (List.mem_append.1 hv).elim (ht v) (hu v)
      have hlink : Preserves (Graph.Every (·.Over ws₂.pool.Uses) BlockKind.Ground) (do
          GraphM.link output input
          GraphM.setTy output (some t)
          GraphM.setTy input (some u)) :=
        (GraphM.every_link output input).bind fun _ => (GraphM.every_setTy output ht).bind fun _ =>
          GraphM.every_setTy input hu
      refine ends_bind.2 (ends_onMain.2 ?_)
      refine (hlink ws₂.main hws₂.main).imp (fun _ g hg => ?_)
        fun g hg => hws₂.setMain hg
      rw [ends_bind, ends_ask]
      have hws₃ := hws₂.setMain hg
      cases g.socket output with
      | error e => exact hws₃
      | ok socket' =>
          have hws₄ : Accounted pool ((Workspace.setGraph ws₂ .main g).substitute .main s) :=
            hws₃.substitute .main hs
          have hws₅ := hws₄.substitute .flyout hs
          simp only [ends_bind, ends_modify, ends_requestRender, ends_requestSweep, ends_pure]
          exact (hws₅.requestRender .main _).requestSweep

theorem accounted_plug (child parent : BlockId) (slot : String) :
    Preserves (Accounted pool) (plug child parent slot) := by
  refine .bind (preserves_ask _) fun block => ?_
  cases block.output with
  | none => exact .throw _
  | some output => exact .bind (preserves_ask _) fun input => accounted_connect output input

theorem accounted_pluggedOutput (parent child : BlockId) :
    Preserves (Accounted pool) (pluggedOutput parent child) := by
  refine .bind (preserves_ask _) fun block => ?_
  cases block.output with
  | none => exact .throw _
  | some output =>
      refine .bind (preserves_ask _) fun plugged => ?_
      cases plugged with
      | none => exact .throw _
      | some b =>
          dsimp only
          split
          · exact .pure _
          · exact .throw _

theorem accounted_unplug (parent child : BlockId) :
    Preserves (Accounted pool) (unplug parent child) :=
  .bind (accounted_pluggedOutput parent child) fun output =>
    .bind (accounted_onMain fun _ => GraphM.every_unlink output) fun _ =>
      .bind (accounted_refresh _) fun _ => accounted_requestSweep

theorem accounted_removeBlock (b : BlockId) : Preserves (Accounted pool) (removeBlock b) :=
  .bind (preserves_ask _) fun _ => .bind (accounted_onMain fun _ => GraphM.every_removeBlock b)
    fun _ => .bind (accounted_refresh _) fun _ => accounted_requestSweep

theorem accounted_setKind (b : BlockId) {f : BlockKind → BlockKind}
    (hf : ∀ kind, kind.Ground → (f kind).Ground) : Preserves (Accounted pool) (setKind b f) :=
  accounted_onMain fun _ => GraphM.every_updateBlock b (fun block => hf block.kind) fun _ h => h

theorem accounted_finishEdit (touched : List BlockId) :
    Preserves (Accounted pool) (finishEdit touched) := by
  refine .bind (accounted_componentsOf touched) fun members => ?_
  refine .bind (accounted_reset members) fun detached => ?_
  refine .bind (accounted_componentsOf detached) fun found => ?_
  have hrest : Preserves (Accounted pool) (do let report ← infer; requestSweep; return report) :=
    .bind accounted_infer fun _ => .bind accounted_requestSweep fun _ => .pure _
  dsimp only
  split
  · exact .bind (accounted_reset _) fun _ => hrest
  · exact hrest

theorem accounted_edit (b : BlockId) {f : BlockKind → Except String BlockKind}
    (hf : ∀ kind kind', f kind = .ok kind' → kind'.Ground) :
    Preserves (Accounted pool) (edit b f) := by
  refine .bind (preserves_ask _) fun block => ?_
  cases hkind : f block.kind with
  | error reason => exact .throw _
  | ok kind =>
      exact .bind (accounted_setKind b fun _ _ => hf _ _ hkind) fun _ => accounted_finishEdit [b]

theorem accounted_functionAt (b : BlockId) : Preserves (Accounted pool) (functionAt b) := by
  refine .bind (preserves_ask _) fun block => ?_
  cases block.kind.function? with
  | none => exact .throw _
  | some f => exact .pure f

theorem accounted_renameParameter (b : BlockId) (old new : String) :
    Preserves (Accounted pool) (renameParameter b old new) := by
  refine .bind (accounted_functionAt b) fun ⟨name, params⟩ => ?_
  dsimp only
  split
  · exact .throw _
  · refine .bind (preserves_ask _) fun uses => ?_
    split
    · exact .throw _
    · exact .bind (accounted_setKind b fun _ _ => trivial) fun _ =>
        .bind (.forM fun use _ => accounted_setKind use fun _ _ => trivial) fun _ =>
          accounted_finishEdit [b]

theorem ground_mapArity (f : Nat → Nat) (kind : BlockKind) (h : kind.Ground) :
    (kind.mapArity f).Ground := by
  cases kind <;> exact h

theorem accounted_addParameter (b : BlockId) (param : String) :
    Preserves (Accounted pool) (addParameter b param) := by
  refine .bind (accounted_functionAt b) fun ⟨name, params⟩ => ?_
  dsimp only
  split
  · exact .throw _
  · exact .bind (accounted_setKind b fun _ _ => trivial) fun _ => .bind .get fun _ =>
      .bind (.forM fun caller _ => accounted_setKind caller (ground_mapArity _)) fun _ =>
        accounted_finishEdit _

theorem accounted_plugArgument (caller : BlockId) (index : Nat) (output : Option SocketId) :
    Preserves (Accounted pool) (plugArgument caller index output) := by
  cases output with
  | none => exact .pure _
  | some output =>
      exact .bind (preserves_ask _) fun input => accounted_onMain fun _ =>
        GraphM.every_link output input

theorem accounted_removeArgument (caller : BlockId) (inputs : List SocketId) (index : Nat) :
    Preserves (Accounted pool) (removeArgument caller inputs index) := by
  refine .bind (.mapM fun s _ => accounted_onMain fun _ => GraphM.every_unlink s) fun plugged => ?_
  have hrest : ∀ removed : Option BlockId, Preserves (Accounted pool) (do
      setKind caller (·.mapArity (· - 1))
      let _ ← renew caller
      (plugged.eraseIdx index).zipIdx.forM fun arg => plugArgument caller arg.2 arg.1
      return removed) := fun removed =>
    .bind (accounted_setKind caller (ground_mapArity _)) fun _ => .bind (accounted_renew caller)
      fun _ => .bind (.forM fun _ _ => accounted_plugArgument _ _ _) fun _ => .pure _
  cases plugged[index]?.join with
  | none => exact .bind (.pure _) hrest
  | some output => exact .bind (.map (.map (preserves_ask _))) hrest

theorem accounted_removeParameter (b : BlockId) (param : String) :
    Preserves (Accounted pool) (removeParameter b param) := by
  refine .bind (accounted_functionAt b) fun ⟨name, params⟩ => ?_
  dsimp only
  split
  · exact .throw _
  · refine .bind .get fun ws => .bind (.mapM fun caller _ => ?_) fun calls => ?_
    · exact .bind (.mapM fun _ _ => preserves_ask _) fun _ => .pure _
    · refine .bind (accounted_setKind b fun _ _ => trivial) fun _ => .bind (.mapM fun call _ => ?_)
        fun _ => accounted_finishEdit _
      exact .bind (accounted_removeArgument call.1 call.2 _) fun _ => .pure _

end WorkspaceM

end Plugboard
