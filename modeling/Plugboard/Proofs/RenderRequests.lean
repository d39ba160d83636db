import Plugboard.Proofs.BlockFaces
import Plugboard.Proofs.Coherence

/-!
# Whatever looks different is drawn anew

Types change in many places: when a block is added, when two blocks are plugged together, when
sockets are made anew, when inferred types are kept. Each of them asks for the blocks on which it
changes something, some only in the end. What has changed so far is asked for then, or is owed; no
operation that succeeds owes anything when it is done.
-/

namespace Plugboard

open Plugboard.Graph

namespace Workspace

variable {old ws ws' : Workspace} {debt debt' : Set BlockId} {canvas : Canvas} {blocks : BlockSet}

theorem mem_renders {x : Canvas × BlockId} : x ∈ ws.renders ↔
    x.1 = .main ∧ x.2 ∈ ws.mainRenders ∨ x.1 = .flyout ∧ x.2 ∈ ws.flyoutRenders := by
  obtain ⟨canvas, b⟩ := x
  cases canvas <;> simp [renders]

theorem mem_renders_requestRender {x : Canvas × BlockId} :
    x ∈ (ws.requestRender canvas blocks).renders ↔
      x ∈ ws.renders ∨ x.1 = canvas ∧ x.2 ∈ blocks := by
  cases canvas <;>
    simp only [mem_renders, requestRender, Std.ExtTreeSet.mem_union_iff, and_or_left] <;> tauto

theorem graph_requestRender (ws : Workspace) (canvas canvas' : Canvas) (blocks : BlockSet) :
    (ws.requestRender canvas blocks).graph canvas' = ws.graph canvas' := by
  cases canvas <;> cases canvas' <;> rfl

/-- Every block that has another look than in `old` is asked for, but those of the main canvas in
`debt`, and what was asked for still is. -/
structure Requests (debt : Set BlockId) (old ws : Workspace) : Prop where
  redraws : ∀ canvas, Redraws {b | (canvas, b) ∈ ws.renders ∨ canvas = .main ∧ b ∈ debt}
    (old.graph canvas) (ws.graph canvas)
  keeps : ∀ x ∈ old.renders, x ∈ ws.renders

namespace Requests

theorem refl (h : ∀ canvas, (ws.graph canvas).Owned) : Requests debt ws ws :=
  ⟨fun canvas => .refl (h canvas), fun _ => id⟩

theorem owned (h : Requests debt old ws) (canvas : Canvas) : (ws.graph canvas).Owned :=
  (h.redraws canvas).owned

theorem of_eq (h : Requests debt old ws) (hmain : ws'.main = ws.main)
    (hflyout : ws'.flyout = ws.flyout) (hrenders : ws'.renders = ws.renders) :
    Requests debt old ws' := by
  have hgraph : ∀ canvas, ws'.graph canvas = ws.graph canvas := by
    intro canvas
    cases canvas with
    | main => exact hmain
    | flyout => exact hflyout
  refine ⟨fun canvas => ?_, fun x hx => hrenders ▸ h.keeps x hx⟩
  rw [hgraph, hrenders]
  exact h.redraws canvas

/-- A block that is gone is not owed. -/
theorem of_contains (h : Requests debt old ws)
    (hsub : ∀ b ∈ debt, ws.main.contains b → b ∈ debt') : Requests debt' old ws where
  redraws canvas := (h.redraws canvas).of_contains fun b hb hcontains =>
    hb.imp_right fun ⟨hcanvas, hdebt⟩ => ⟨hcanvas, by
      subst hcanvas
      exact hsub b hdebt hcontains⟩
  keeps := h.keeps

theorem mono (h : Requests debt old ws) (hsub : debt ⊆ debt') : Requests debt' old ws :=
  h.of_contains fun _ hb _ => hsub hb

theorem setMain {g : Graph} (h : Requests debt old ws) (hg : Redraws debt ws.main g) :
    Requests debt old { ws with main := g } where
  redraws
    | .main => (h.redraws .main).trans (hg.mono fun _ hb => .inr ⟨rfl, hb⟩)
    | .flyout => h.redraws .flyout
  keeps := h.keeps

/-- Changes that are asked for. -/
theorem draw {g : Graph} (h : Requests debt old ws)
    (hg : Redraws {b | b ∈ blocks} (ws.graph canvas) g) :
    Requests debt old ((ws.setGraph canvas g).requestRender canvas blocks) := by
  have hrenders : ∀ {x}, x ∈ ((ws.setGraph canvas g).requestRender canvas blocks).renders ↔
      x ∈ ws.renders ∨ x.1 = canvas ∧ x.2 ∈ blocks := by
    intro x
    rw [mem_renders_requestRender]
    cases canvas <;> rfl
  refine ⟨fun canvas' => ?_, fun x hx => hrenders.2 (.inl (h.keeps x hx))⟩
  simp only [hrenders, graph_requestRender]
  have hold : Redraws {b | ((canvas', b) ∈ ws.renders ∨ canvas' = canvas ∧ b ∈ blocks) ∨
      canvas' = .main ∧ b ∈ debt} (old.graph canvas') (ws.graph canvas') :=
    (h.redraws canvas').mono fun _ hb => hb.imp_left .inl
  by_cases hcanvas : canvas' = canvas
  · subst hcanvas
    have hgraph : (ws.setGraph canvas' g).graph canvas' = g := by cases canvas' <;> rfl
    rw [hgraph]
    exact hold.trans (hg.mono fun _ hb => .inl (.inr ⟨rfl, hb⟩))
  · have hgraph : (ws.setGraph canvas g).graph canvas' = ws.graph canvas' := by
      cases canvas <;> cases canvas' <;> first | rfl | exact (hcanvas rfl).elim
    rw [hgraph]
    exact hold

theorem pay (h : Requests debt old ws) (hsub : ∀ b ∈ debt, b ∈ blocks ∨ b ∈ debt') :
    Requests debt' old (ws.requestRender .main blocks) where
  redraws canvas := by
    rw [graph_requestRender]
    refine (h.redraws canvas).mono fun b hb => ?_
    rcases hb with hb | ⟨rfl, hb⟩
    · exact .inl (mem_renders_requestRender.2 (.inl hb))
    · exact (hsub b hb).imp (fun hb => mem_renders_requestRender.2 (.inr ⟨rfl, hb⟩))
        fun hb => ⟨rfl, hb⟩
  keeps x hx := mem_renders_requestRender.2 (.inl (h.keeps x hx))

theorem substitute (h : Requests debt old ws) (canvas : Canvas) (s : Subst) :
    Requests debt old (ws.substitute canvas s) :=
  h.draw (redraws_applyTo (h.owned canvas)
    (fun hsocket hmem hty hne =>
      mem_changedBy.2 ⟨hmem, .inl ⟨_, _, _, hsocket, rfl, hty, hne⟩⟩)
    fun hblock hmem ht hne => mem_changedBy.2 ⟨hmem, .inr ⟨_, _, _, hblock, ht, hne⟩⟩)

end Requests

end Workspace

namespace WorkspaceM

open Workspace

variable {α : Type} {P : Workspace → Prop} {old ws : Workspace} {debt debt' : Set BlockId}

theorem carries_query (f : Workspace → Except Fault α) : Carries P (query f) :=
  .of_preserves (preserves_query f)

theorem carries_ask (f : Graph → Except Fault α) : Carries P (ask f) := carries_query _

theorem carries_onPool (f : VarPool → α × VarPool) : Carries (Requests debt old) (onPool f) :=
  .modifyGet fun _ h => h.of_eq rfl rfl rfl

theorem carries_runInference (action : StateM InferState α) :
    Carries (Requests debt old) (runInference action) :=
  .modifyGet fun _ h => h.of_eq rfl rfl rfl

theorem carries_requestSweep : Carries (Requests debt old) requestSweep :=
  .modify fun _ h => h.of_eq rfl rfl rfl

theorem carries_onMain {action : GraphM α}
    (h : ∀ g : Graph, g.Owned → Ends action g (fun _ => Redraws debt g) fun _ => True) :
    Carries (Requests debt old) (onMain action) := fun ws hws => by
  rw [ends_onMain]
  exact (h ws.main (hws.owned .main)).imp (fun _ _ hg => hws.setMain hg) fun _ => id

/-- What touches no looks may be done to the main canvas. -/
theorem carries_onMain_of {action : GraphM α} (h : ∀ g, Carries (Redraws debt g) action) :
    Carries (Requests debt old) (onMain action) :=
  carries_onMain fun g hg => h g g (.refl hg)

section Inference

theorem carries_annotate (types : Std.ExtTreeMap Tag Ty) :
    Carries (Requests debt old) (annotate types) := fun ws hws => by
  rw [annotate, ends_bind, ends_onMain]
  exact (GraphM.ends_annotate_redraws (hws.owned .main) types).imp
    (fun members g hg => hws.draw hg) fun _ => id

theorem carries_warn (root : BlockId) (e : TypeError) : Carries (Requests debt old) (warn root e) :=
  .modify fun ws hws =>
    show Requests debt old ((ws.setGraph .main _).requestRender .main _) from
      hws.draw (redraws_modifyBlock_same (hws.owned .main) fun _ => ⟨rfl, rfl⟩)

theorem carries_clearWarnings (roots : List BlockId) :
    Carries (Requests debt old) (clearWarnings roots) :=
  .bind (.mapM fun _ _ => carries_ask _) fun _ => .bind .get fun _ =>
    .bind (.mapM fun _ _ => carries_ask _) fun _ => .forM fun b _ =>
      carries_onMain_of fun _ => GraphM.carries_setWarning b none

theorem carries_inferGroup (env : Env) (group : List BlockId) :
    Carries (Requests debt old) (inferGroup env group) :=
  .bind .get fun _ => .bind (carries_runInference _) fun _ => .bind (carries_annotate _) fun _ =>
    .bind (.forM fun _ _ => carries_warn _ _) fun _ => .pure _

theorem carries_globalEnv : Carries (Requests debt old) globalEnv :=
  .bind (carries_query _) fun _ => .bind .get fun _ => .foldlM _ fun _ _ _ => carries_inferGroup _ _

theorem carries_inferTree (env : Env) (root : BlockId) (expected : Option Ty) :
    Carries (Requests debt old) (inferTree env root expected) := fun ws hws => by
  cases hlower : ws.main.lower root with
  | error e => exact (ends_inferTree_unlowered hlower).2 (carries_warn _ _ ws hws)
  | ok l =>
      have hpool : ∀ pool, Requests debt old { ws with pool } := fun pool =>
        hws.of_eq rfl rfl rfl
      rw [ends_inferTree_iff hlower]
      rcases (l.inference env root expected).run (InferM.ofPool ws.pool) with ⟨e | s, st⟩
      · exact carries_warn root e _ (hpool _)
      · exact carries_annotate _ _ (hpool _)

theorem carries_inferSlot (env : Env) (input : SocketId) :
    Carries (Requests debt old) (inferSlot env input) := by
  refine .bind (carries_ask _) fun child? => ?_
  cases child? with
  | none => exact .pure _
  | some child =>
      exact .bind (carries_ask _) fun _ => .bind (carries_inferTree _ _ _) fun _ => .pure _

theorem carries_total {action : α → WorkspaceM Nat} (h : ∀ a, Carries P (action a)) (xs : List α) :
    Carries P (total action xs) :=
  .foldlM _ fun _ a _ => .bind (h a) fun _ => .pure _

theorem carries_inferRoot (env : Env) (root : BlockId) :
    Carries (Requests debt old) (inferRoot env root) := by
  refine .bind (carries_ask _) fun block => ?_
  split
  · exact .pure _
  · exact .pure _
  · exact carries_total (carries_inferSlot env) _
  · exact .bind (carries_inferTree env root none) fun _ => .pure _

theorem carries_inferRoots (roots : List BlockId) :
    Carries (Requests debt old) (inferRoots roots) :=
  .bind (carries_clearWarnings roots) fun _ => .bind carries_globalEnv fun _ =>
    .bind (carries_total (carries_inferRoot _) roots) fun _ => .bind .get fun _ => .pure _

theorem carries_infer : Carries (Requests debt old) infer :=
  .bind .get fun _ => carries_inferRoots _

end Inference

section Making

theorem carries_layoutFor (kind : BlockKind) : Carries (Requests debt old) (layoutFor kind) := by
  cases kind with
  | literal value ty => exact .pure _
  | operator name arity => exact .bind (carries_query _) fun _ => carries_onPool _
  | cases typeName arms => exact .bind .get fun _ => carries_onPool _
  | data decl => exact .pure _
  | statement name =>
      rw [layoutFor]
      split
      · exact carries_onPool _
      · exact .throw _
  | _ =>
      rw [layoutFor]
      exact carries_onPool _

theorem carries_addBlock (canvas : Canvas) (kind : BlockKind) :
    Carries (Requests debt old) (addBlock canvas kind) := by
  refine .bind (carries_layoutFor kind) fun layout ws hws => ?_
  rw [ends_bind, ends_onGraph, GraphM.ends_act]
  refine hws.draw ((redraws_addBlock (hws.owned canvas) kind layout).mono ?_)
  rintro _ rfl
  simp

theorem carries_addOperator (name : String) : Carries (Requests debt old) (addOperator name) := by
  refine .bind .get fun ws => ?_
  split
  · exact carries_addBlock _ _
  · exact .throw _

theorem carries_addCase (typeName : String) : Carries (Requests debt old) (addCase typeName) := by
  refine .bind .get fun ws => ?_
  split
  · exact carries_addBlock _ _
  · exact .throw _

/-- A block that is made anew is owed. -/
theorem carries_renew {b : BlockId} (hb : b ∈ debt) : Carries (Requests debt old) (renew b) :=
  .bind (carries_ask _) fun _ => .bind (carries_layoutFor _) fun layout =>
    carries_onMain fun _ hg => (GraphM.ends_replaceSockets_redraws hg b layout).imp
      (fun _ _ hg' => hg'.mono (Set.singleton_subset_iff.2 hb)) fun _ => id

/-- Blocks that are made anew together are asked for when that is done. -/
theorem ends_reset_requests {members : BlockSet} (h : Requests debt old ws)
    (hsub : ∀ b ∈ debt, b ∈ members ∨ b ∈ debt') :
    Ends (reset members) ws (fun _ => Requests debt' old) fun _ => True := by
  have hrenew : Carries (Requests (debt ∪ {b | b ∈ members}) old) (members.toList.mapM renew) :=
    .mapM fun b hb => carries_renew (.inr (Std.ExtTreeSet.mem_toList.1 hb))
  rw [reset, ends_bind]
  refine (hrenew ws (h.mono Set.subset_union_left)).imp (fun detached ws₁ h₁ => ?_) fun _ => id
  rw [ends_bind, ends_ask]
  cases ws₁.main.linkAgreement _ with
  | error e => trivial
  | ok s =>
      dsimp only
      rw [ends_bind, ends_onMain, ends_modify, ends_bind, ends_requestRender]
      refine (h₁.setMain (redraws_applyTo (h₁.owned .main) ?_ ?_)).pay fun b hb => ?_
      · exact fun _ hmem _ _ => .inr hmem
      · exact fun _ hmem _ _ => .inr hmem
      · exact hb.elim (hsub b) .inl

theorem ends_componentsOf_mem (blocks : List BlockId) :
    Ends (componentsOf blocks) ws (fun found ws' => ws' = ws ∧
      ∀ b ∈ blocks, ws.main.contains b → b ∈ found) fun _ => True := by
  rw [componentsOf, ends_ask]
  cases hfound : ws.main.components (blocks.filter ws.main.contains) with
  | error e => trivial
  | ok found =>
      exact ⟨rfl, fun b hb hcontains =>
        mem_of_components hfound (List.mem_filter.2 ⟨hb, hcontains⟩)⟩

theorem carries_reset (members : BlockSet) : Carries (Requests debt old) (reset members) :=
  fun _ hws => ends_reset_requests hws fun _ => .inr

theorem carries_refresh (blocks : List BlockId) : Carries (Requests debt old) (refresh blocks) :=
  .bind (carries_ask _) fun _ => .bind (carries_reset _) fun _ => .bind .get fun _ =>
    .bind (.mapM fun _ _ => carries_ask _) fun _ => .bind (carries_inferRoots _) fun _ => .pure _

/-- Nothing is owed when an edit is finished that has told all blocks it owes. -/
theorem ends_finishEdit_requests {touched : List BlockId} (h : Requests debt old ws)
    (hdebt : ∀ b ∈ debt, b ∈ touched) :
    Ends (finishEdit touched) ws (fun _ => Requests ∅ old) fun _ => True := by
  have hrest : Carries (Requests ∅ old) (do
      let report ← infer; requestSweep; return report) :=
    .bind carries_infer fun _ => .bind carries_requestSweep fun _ => .pure _
  rw [finishEdit, ends_bind]
  refine (ends_componentsOf_mem touched).imp (fun members ws₁ hfound => ?_) fun _ => id
  obtain ⟨rfl, hmem⟩ := hfound
  -- blocks that have gone in the meantime are not owed any more
  have hlive : Requests {b | b ∈ members} old ws₁ :=
    h.of_contains fun b hb hcontains => hmem b (hdebt b hb) hcontains
  rw [ends_bind]
  have hreset : Ends (reset members) ws₁ (fun _ => Requests ∅ old) fun _ => True :=
    ends_reset_requests hlive fun _ => .inl
  refine hreset.imp (fun detached ws₂ h₂ => ?_) fun _ => id
  refine Carries.bind (carries_ask _) (fun found => ?_) ws₂ h₂
  dsimp only
  split
  · exact .bind (carries_reset _) fun _ => hrest
  · exact hrest

theorem carries_finishEdit (touched : List BlockId) :
    Carries (Requests ∅ old) (finishEdit touched) :=
  fun _ hws => ends_finishEdit_requests hws fun _ => False.elim

end Making

section Plugging

theorem carries_orient (a b : SocketId) : Carries P (orient a b) := by
  refine .bind (carries_ask _) fun first => .bind (carries_ask _) fun second => ?_
  split
  · exact .pure _
  · exact .pure _
  · exact .throw _

theorem carries_requireUnplugged (s : SocketId) : Carries P (requireUnplugged s) := by
  refine .bind (carries_ask _) fun socket => ?_
  split
  · exact .throw _
  · exact .pure _

theorem carries_tyOrFresh (hpool : ∀ ws pool, P ws → P { ws with pool }) (s : SocketId) :
    Carries P (tyOrFresh s) := by
  refine .bind (carries_ask _) fun ty => ?_
  cases ty with
  | none => exact .modifyGet fun ws => hpool ws _
  | some t => exact .pure t

/-- Two blocks that are linked are asked for, as are all that get other types by it. -/
theorem ends_join_requests {output input : SocketId} {parent : BlockId} {t u : Ty} {s : Subst}
    (h : Requests ∅ old ws) (hinput : ws.main.Owns parent input) :
    Ends (do
        onMain do
          GraphM.link output input
          GraphM.setTy output (some t)
          GraphM.setTy input (some u)
        let child := (← ask (·.socket output)).block
        modify fun ws => (ws.substitute .main s).substitute .flyout s
        requestRender .main (.ofList [child, parent])
        requestSweep
        return s) ws (fun _ => Requests ∅ old) fun _ => True := by
  cases houtput : ws.main.sockets[output]? with
  | none =>
      -- no link is made from a socket that is not there
      rw [ends_bind, ends_onMain, ends_bind, GraphM.link, ends_bind, GraphM.ends_ask]
      cases ws.main.socket input with
      | error e => trivial
      | ok _ =>
          dsimp only
          rw [ends_bind, GraphM.updateSocket, ends_bind, GraphM.ends_ask, Graph.socket, houtput]
          trivial
  | some socket =>
      have hout := (h.owned .main).owns houtput
      have hlink : Carries (Redraws {socket.block, parent} ws.main) (do
          GraphM.link output input
          GraphM.setTy output (some t)
          GraphM.setTy input (some u)) :=
        .bind (GraphM.carries_link output input) fun _ =>
          .bind (GraphM.carries_setTy hout (.inl rfl) _) fun _ =>
            GraphM.carries_setTy hinput (.inr rfl) _
      rw [ends_bind, ends_onMain]
      refine (hlink ws.main (.refl (h.owned .main))).imp (fun _ g hg => ?_) fun _ => id
      rw [ends_bind, ends_ask]
      cases hchild : g.socket output with
      | error e => trivial
      | ok socket' =>
          have hblock : socket'.block = socket.block := (hg.owns hout).block (socket_eq_ok.1 hchild)
          have hlinked := (h.mono (Set.empty_subset _)).setMain hg
          simp only [ends_bind, ends_modify, ends_requestRender, ends_requestSweep, ends_pure]
          refine (((hlinked.substitute .main s).substitute .flyout s).pay ?_).of_eq rfl rfl rfl
          rintro b (rfl | rfl) <;> simp [hblock]

theorem carries_connect (a b : SocketId) : Carries (Requests ∅ old) (connect a b) := by
  refine .bind (carries_orient a b) fun sockets => ?_
  obtain ⟨output, input⟩ := sockets
  refine .bind (carries_requireUnplugged output) fun _ =>
    .bind (carries_requireUnplugged input) fun _ ws hws => ?_
  rw [ends_bind, ends_ask]
  cases hinput : ws.main.socket input with
  | error e => trivial
  | ok socket =>
      have howns := (hws.owned .main).owns (socket_eq_ok.1 hinput)
      have hpool : ∀ ws' pool, Requests ∅ old ws' ∧ ws'.main.Owns socket.block input →
          Requests ∅ old { ws' with pool } ∧ ws'.main.Owns socket.block input :=
        fun ws' pool h => ⟨h.1.of_eq rfl rfl rfl, h.2⟩
      dsimp only
      rw [ends_bind, ends_ask]
      cases ws.main.wouldCycle output input with
      | error e => trivial
      | ok cycle =>
          dsimp only
          split
          · trivial
          have htys : ∀ s, Carries
              (fun ws' => Requests ∅ old ws' ∧ ws'.main.Owns socket.block input) (tyOrFresh s) :=
            carries_tyOrFresh hpool
          rw [ends_bind]
          refine (htys output ws ⟨hws, howns⟩).imp (fun t ws₁ h₁ => ?_) fun _ => id
          rw [ends_bind]
          refine (htys input ws₁ h₁).imp (fun u ws₂ h₂ => ?_) fun _ => id
          cases unify t u with
          | error e => trivial
          | ok s => exact ends_join_requests h₂.1 h₂.2

theorem carries_plug (child parent : BlockId) (slot : String) :
    Carries (Requests ∅ old) (plug child parent slot) := by
  refine .bind (carries_ask _) fun block => ?_
  split
  · exact .throw _
  · exact .bind (carries_ask _) fun _ => carries_connect _ _

theorem carries_pluggedOutput (parent child : BlockId) :
    Carries P (pluggedOutput parent child) := by
  refine .bind (carries_ask _) fun block => ?_
  split
  · exact .throw _
  · refine .bind (carries_ask _) fun plugged => ?_
    split
    · split
      · exact .pure _
      · exact .throw _
    · exact .throw _

theorem carries_unplug (parent child : BlockId) :
    Carries (Requests debt old) (unplug parent child) :=
  .bind (carries_pluggedOutput parent child) fun output =>
    .bind (carries_onMain_of fun _ => GraphM.carries_unlink output) fun _ =>
      .bind (carries_refresh _) fun _ => carries_requestSweep

theorem carries_removeBlock (b : BlockId) : Carries (Requests debt old) (removeBlock b) :=
  .bind (carries_ask _) fun _ => .bind (carries_onMain fun _ hg =>
      (GraphM.ends_removeBlock_redraws hg b).imp (fun _ _ hg' => hg'.mono (Set.empty_subset _))
        fun _ => id) fun _ =>
    .bind (carries_refresh _) fun _ => carries_requestSweep

end Plugging

section Editing

theorem carries_setKind (b : BlockId) (f : BlockKind → BlockKind) :
    Carries (Requests debt old) (setKind b f) :=
  carries_onMain_of fun _ => GraphM.carries_updateBlock fun _ => ⟨rfl, rfl⟩

theorem carries_edit (b : BlockId) (f : BlockKind → Except String BlockKind) :
    Carries (Requests ∅ old) (edit b f) := by
  refine .bind (carries_ask _) fun block => ?_
  split
  · exact .throw _
  · exact .bind (carries_setKind b _) fun _ => carries_finishEdit _

theorem carries_functionAt (b : BlockId) : Carries P (functionAt b) := by
  refine .bind (carries_ask _) fun block => ?_
  split
  · exact .pure _
  · exact .throw _

theorem carries_renameParameter (b : BlockId) (name name' : String) :
    Carries (Requests ∅ old) (renameParameter b name name') := by
  refine .bind (carries_functionAt b) fun _ => ?_
  dsimp only
  split
  · exact .throw _
  · refine .bind (carries_ask _) fun uses => ?_
    split
    · exact .throw _
    · exact .bind (carries_setKind b _) fun _ => .bind (.forM fun _ _ => carries_setKind _ _)
        fun _ => carries_finishEdit _

theorem carries_addParameter (b : BlockId) (param : String) :
    Carries (Requests ∅ old) (addParameter b param) := by
  refine .bind (carries_functionAt b) fun _ => ?_
  dsimp only
  split
  · exact .throw _
  · exact .bind (carries_setKind b _) fun _ => .bind .get fun _ =>
      .bind (.forM fun _ _ => carries_setKind _ _) fun _ => carries_finishEdit _

theorem carries_plugArgument (caller : BlockId) (index : Nat) (output : Option SocketId) :
    Carries (Requests debt old) (plugArgument caller index output) := by
  cases output with
  | none => exact .pure _
  | some output =>
      exact .bind (carries_ask _) fun input => carries_onMain_of fun _ =>
        GraphM.carries_link output input

/-- A call that loses an argument is owed. -/
theorem carries_removeArgument {caller : BlockId} (hcaller : caller ∈ debt)
    (inputs : List SocketId) (index : Nat) :
    Carries (Requests debt old) (removeArgument caller inputs index) := by
  refine .bind (.mapM fun input _ => carries_onMain_of fun _ => GraphM.carries_unlink input)
    fun plugged => ?_
  have hrest : ∀ removed : Option BlockId, Carries (Requests debt old) (do
      setKind caller (·.mapArity (· - 1))
      let _ ← renew caller
      (plugged.eraseIdx index).zipIdx.forM fun arg => plugArgument caller arg.2 arg.1
      return removed) := fun removed =>
    .bind (carries_setKind caller _) fun _ => .bind (carries_renew hcaller) fun _ =>
      .bind (.forM fun _ _ => carries_plugArgument _ _ _) fun _ => .pure _
  cases plugged[index]?.join with
  | none => exact .bind (.pure _) hrest
  | some output => exact .bind (.map (.map (carries_ask _))) hrest

/-- All calls that lose an argument are told to be owed. -/
theorem ends_removeArguments_requests {calls : List (BlockId × List SocketId)} {index : Nat}
    (h : Requests debt old ws) :
    Ends (calls.mapM fun (caller, inputs) => do
        let removed ← removeArgument caller inputs index
        return removed.toList ++ [caller]) ws
      (fun touched => Requests (debt ∪ {c | c ∈ touched.flatten}) old) fun _ => True := by
  induction calls generalizing debt ws with
  | nil => exact h.mono Set.subset_union_left
  | cons call calls ih =>
      obtain ⟨caller, inputs⟩ := call
      have hcall : Carries (Requests (insert caller debt) old)
          (removeArgument caller inputs index) :=
        carries_removeArgument (Set.mem_insert caller debt) inputs index
      rw [List.mapM_cons, ends_bind, ends_bind]
      refine (hcall ws (h.mono (Set.subset_insert caller debt))).imp (fun removed ws₁ h₁ => ?_)
        fun _ => id
      rw [ends_pure, ends_bind]
      refine (ih h₁).imp (fun touched ws₂ h₂ => ?_) fun _ => id
      refine h₂.mono ?_
      rintro c ((rfl | hc) | hc)
      · exact .inr (by simp)
      · exact .inl hc
      · refine .inr ?_
        simp only [Set.mem_ofPred_eq, List.flatten_cons, List.mem_append] at hc ⊢
        exact .inr hc

theorem carries_removeParameter (b : BlockId) (param : String) :
    Carries (Requests ∅ old) (removeParameter b param) := by
  refine .bind (carries_functionAt b) fun f => ?_
  dsimp only
  split
  · exact .throw _
  · refine .bind .get fun ws => .bind (.mapM fun caller _ => ?_) fun calls => ?_
    · exact .bind (.mapM fun _ _ => carries_ask _) fun _ => .pure _
    · refine .bind (carries_setKind b _) fun _ ws₁ h₁ => ?_
      rw [ends_bind]
      refine (ends_removeArguments_requests h₁).imp (fun touched ws₂ h₂ => ?_) fun _ => id
      refine ends_finishEdit_requests h₂ fun c hc => ?_
      exact List.mem_cons_of_mem _ (hc.resolve_left (Set.notMem_empty c))

end Editing

/-- A command owes nothing when it is done. -/
theorem carries_perform {command : Command} (hcommand : command ≠ .takeRenders) :
    Carries (Requests ∅ old) (perform command) := by
  cases command with
  | add canvas kind => exact .map (carries_addBlock canvas kind)
  | addOperator name => exact .map (carries_addOperator name)
  | addCase typeName => exact .map (carries_addCase typeName)
  | remove b => exact .map (carries_removeBlock b)
  | connect a b => exact .map (carries_connect a b)
  | plug child parent slot => exact .map (carries_plug child parent slot)
  | unplug parent child => exact .map (carries_unplug parent child)
  | infer => exact .map carries_infer
  | renameParameter b name name' => exact .map (carries_renameParameter b name name')
  | addParameter b name => exact .map (carries_addParameter b name)
  | removeParameter b name => exact .map (carries_removeParameter b name)
  | addGenerator b name => exact .map (carries_edit b _)
  | removeGenerator b name => exact .map (carries_edit b _)
  | addGuard b => exact .map (carries_edit b _)
  | removeGuard b => exact .map (carries_edit b _)
  | setItems b items => exact .map (carries_edit b _)
  | allocate => exact .map (carries_onPool _)
  | collect =>
      exact .map (.modifyGet fun _ h => h.of_eq rfl rfl rfl)
  | requestSweep => exact .map carries_requestSweep
  | poll now =>
      refine .map (.modifyGet fun ws h => ?_)
      by_cases hdue : ws.sweep.isDue now
      · rw [show ws.pollSweep now = (true, ws.collect) from if_pos hdue]
        exact h.of_eq rfl rfl rfl
      · rw [show ws.pollSweep now = (false, ws) from if_neg hdue]
        exact h
  | wait millis => exact .modifyGet fun _ h => h.of_eq rfl rfl rfl
  | takeRenders => exact (hcommand rfl).elim

end WorkspaceM

namespace Workspace

variable {old ws : Workspace}

/-- A command that succeeds owes nothing, and one that is refused has changed nothing. -/
theorem Requests.after (h : Requests ∅ old ws) (hsettled : ws.Settled ∅) {command : Command}
    (hcommand : command ≠ .takeRenders) : Requests ∅ old (ws.after command) :=
  (((WorkspaceM.carries_perform hcommand ws h).and (WorkspaceM.ends_perform hsettled command)).imp
    (fun _ _ => And.left) fun _ hsame => hsame.2 ▸ h).state

theorem Requests.foldl (h : Requests ∅ old ws) {commands : List Command}
    (htaken : .takeRenders ∉ commands)
    (hsettled : ∀ done command rest, commands = done ++ command :: rest →
      (done.foldl Workspace.after ws).Settled ∅) :
    Requests ∅ old (commands.foldl Workspace.after ws) := by
  induction commands generalizing ws with
  | nil => exact h
  | cons command commands ih =>
      rw [List.mem_cons, not_or] at htaken
      refine ih (h.after (hsettled [] command commands rfl) (Ne.symm htaken.1)) htaken.2 ?_
      exact fun done next rest hsplit =>
        hsettled (command :: done) next rest (congrArg (command :: ·) hsplit)

theorem Reachable.requests (h : ws.Reachable Command.AddsUnrepeated) : Requests ∅ ws ws :=
  .refl fun canvas => match canvas with
    | .main => .of_wired h.settled.1.1.toWired
    | .flyout => .of_wired h.settled.1.2.toWired

/-- A block that a command creates or makes look different is asked for, on whichever canvas it is,
and what was asked for stays so until it is taken. -/
theorem Reachable.renders_changes (h : ws.Reachable Command.AddsUnrepeated) :
    (∀ (command : Command) {canvas : Canvas} {b : BlockId} {face : Face},
      ((ws.after command).graph canvas).face? b = some face →
      (ws.graph canvas).face? b ≠ some face → (canvas, b) ∈ (ws.after command).renders) ∧
    ∀ commands : List Command, .takeRenders ∉ commands →
      (∀ done command rest, commands = done ++ command :: rest →
        (done.foldl Workspace.after ws).Reachable Command.AddsUnrepeated) →
      ∀ x ∈ ws.renders, x ∈ (commands.foldl Workspace.after ws).renders := by
  refine ⟨fun command canvas b face hface hold => ?_, fun commands htaken hrun => ?_⟩
  · by_cases htaken : command = .takeRenders
    · subst htaken
      have hsame : ((ws.after .takeRenders).graph canvas) = ws.graph canvas := by
        cases canvas <;> rfl
      exact (hold (hsame ▸ hface)).elim
    · by_contra hmem
      refine hold (((h.requests.after h.settled htaken).redraws canvas).face ?_ hface)
      exact fun hasked => hasked.elim hmem fun hdebt => hdebt.2
  · exact (h.requests.foldl htaken fun done command rest hsplit =>
      (hrun done command rest hsplit).settled).keeps

set_option maxRecDepth 4000 in
/-- The function slot of an application gets another type from what is plugged in beside it.
Inference does not take back that the application is asked for. -/
theorem renders_changes_plug :
    let ws := [.add .main .apply, .add .main (.literal "1" .number), .takeRenders].foldl after
      (ofSettings default)
    let ws' := ws.after (.plug ⟨1⟩ ⟨0⟩ "ARG")
    ws.renders = [] ∧ ws'.main.face? ⟨0⟩ ≠ ws.main.face? ⟨0⟩ ∧ (.main, ⟨0⟩) ∈ ws'.renders ∧
      (.main, ⟨0⟩) ∈ (ws'.after .infer).renders := by
  intro ws ws'
  have hempty : ws.renders = [] := by
    subst ws' ws
    cbv
  have hold : (ws.main.face? ⟨0⟩).map (·.ports[1]?) =
      some (some (⟨1⟩, some (.input "FUNC", some (.fn (.var "A") (.var "B"))))) := by
    subst ws' ws
    cbv
  have hnew : (ws'.main.face? ⟨0⟩).map (·.ports[1]?) =
      some (some (⟨1⟩, some (.input "FUNC", some (.fn .number (.var "B"))))) := by
    subst ws' ws
    cbv
  have hne : ws'.main.face? ⟨0⟩ ≠ ws.main.face? ⟨0⟩ := fun heq => by
    rw [heq, hold] at hnew
    cases hnew
  obtain ⟨face, hface, -⟩ := Option.map_eq_some_iff.1 hnew
  have hreach : ws.Reachable Command.AddsUnrepeated := (Reachable.start default).foldl
    (by simp [Command.AddsUnrepeated, BlockKind.Unrepeated])
  have hreach' : ws'.Reachable Command.AddsUnrepeated := hreach.after trivial
  have hasked : (.main, ⟨0⟩) ∈ ws'.renders :=
    (Reachable.renders_changes hreach).1 _ hface (hface ▸ hne.symm)
  refine ⟨hempty, hne, hasked, ?_⟩
  refine (Reachable.renders_changes hreach').2 [.infer] (by simp)
    (fun done command rest hsplit => ?_) _ hasked
  cases done with
  | nil => exact hreach'
  | cons => simp at hsplit

end Workspace

end Plugboard
