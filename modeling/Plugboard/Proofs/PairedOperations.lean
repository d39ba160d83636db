import Plugboard.Proofs.LiveVariables
import Plugboard.Proofs.PairedWorkspaces

/-!
# Commands do not depend on names

Adding, plugging, unplugging, removing and changing blocks does the same to two workspaces that
differ in the names of type variables, and so does every command but a collection.
-/

namespace Plugboard

namespace Pairing

open WorkspaceM

variable {p : Pairing} {ws ws' : Workspace}

/-! ### Blocks -/

theorem steps_layoutFor {kind : BlockKind} (hkind : kind.Ground) :
    p.Steps (layoutFor kind) (layoutFor kind) Layouts := by
  cases kind with
  | literal text ty => exact .pure ⟨.some (.of_ground hkind), .nil, .empty⟩
  | operator name arity =>
      refine Parallel.bind (steps_query (R := fun q => Option.Rel q.Schemes)
        fun _ _ _ _ hws => hws.calleeScheme? name) fun q scheme? scheme?' _ h => ?_
      exact steps_onPool (inStep_operator h arity)
  | «variable» name => exact steps_onPool inStep_use
  | lambda param => exact steps_onPool inStep_lambda
  | apply => exact steps_onPool inStep_apply
  | localLet name => exact steps_onPool inStep_localLet
  | list items => exact steps_onPool (inStep_list items)
  | comprehension vars guards => exact steps_onPool (inStep_comprehension vars guards)
  | cases typeName arms =>
      refine Parallel.get.bind fun q ws ws' _ hws => ?_
      rw [Workspace.declaration?_eq hws.shape]
      exact steps_onPool (inStep_cases _ arms)
  | function name params => exact steps_onPool (inStep_function params)
  | data decl => exact .pure ⟨.none, .nil, .empty⟩
  | statement name =>
      rw [layoutFor]
      cases Prelude.statements[name]? with
      | none => exact .throw rfl
      | some slots => exact steps_onPool (inStep_statement slots)

theorem steps_addBlock (canvas : Canvas) {kind : BlockKind} (hkind : kind.Ground) :
    p.Steps (addBlock canvas kind) (addBlock canvas kind) Same := by
  refine (steps_layoutFor hkind).bind fun q layout layout' _ hlayout => ?_
  refine (steps_onGraph canvas (edits_act fun _ _ hg => hg.addBlock hkind hlayout)).bind
    fun _ b _ _ h => ?_
  subst h
  exact (steps_requestRender _ _ _ _).bind fun _ _ _ _ _ => .pure rfl

theorem steps_addOperator (name : String) :
    p.Steps (addOperator name) (addOperator name) Same := by
  refine Parallel.get.bind fun q ws ws' _ hws => ?_
  rw [Workspace.calleeArity?_eq hws.shape]
  cases ws.calleeArity? name with
  | none => exact .throw rfl
  | some arity => exact steps_addBlock .main trivial

theorem steps_addCase (typeName : String) :
    p.Steps (addCase typeName) (addCase typeName) Same := by
  refine Parallel.get.bind fun q ws ws' _ hws => ?_
  rw [Workspace.declaration?_eq hws.shape]
  cases ws.declaration? typeName with
  | none => exact .throw rfl
  | some decl => exact steps_addBlock .main trivial

theorem steps_renew (b : BlockId) : p.Steps (renew b) (renew b) Same := by
  refine (steps_askBlock b).bind fun q x x' _ hx => ?_
  rw [hx.kind]
  refine (steps_layoutFor hx.ground).bind fun r layout layout' _ hlayout => ?_
  exact steps_onMain (edits_replaceSockets b hlayout)

theorem steps_reset (members : BlockSet) : p.Steps (reset members) (reset members) Same := by
  refine (Parallel.mapM_eq fun _ b _ => steps_renew b).bind fun q detached _ _ h => ?_
  subst h
  have hagreement : q.Steps (ask fun g => g.linkAgreement (g.linksWithin members))
      (ask fun g => g.linkAgreement (g.linksWithin members)) Substs :=
    steps_ask fun _ g g' _ hg => by
      rw [hg.sameShape.linksWithin_eq]
      exact hg.linkAgreement _
  refine hagreement.bind fun r s s' _ hs => ?_
  refine (steps_onMain (edits_modify fun g g' hg => hg.applyTo hs members)).bind fun _ _ _ _ _ => ?_
  exact (steps_requestRender _ _ _ _).bind fun _ _ _ _ _ => .pure rfl

theorem steps_componentsOf (blocks : List BlockId) :
    p.Steps (componentsOf blocks) (componentsOf blocks) Same :=
  steps_ask_eq fun _ _ hg => by rw [hg.contains_eq, hg.components_eq]

theorem steps_refresh (blocks : List BlockId) :
    p.Steps (refresh blocks) (refresh blocks) Same := by
  refine (steps_componentsOf blocks).bind fun q members _ _ h => ?_
  subst h
  refine (steps_reset members).bind fun q detached _ _ h => ?_
  subst h
  refine Parallel.get.bind fun q ws ws' _ hws => ?_
  rw [hws.shape.contains_eq]
  refine Parallel.bind (.mapM_eq fun _ b _ => steps_ask_eq fun _ _ hg => by rw [hg.rootOf_eq])
    fun q roots _ _ h => ?_
  subst h
  exact (steps_inferRoots _).bind fun _ _ _ _ _ => .pure rfl

/-! ### Plugging and unplugging -/

theorem steps_orient (a b : SocketId) : p.Steps (orient a b) (orient a b) Same := by
  refine (steps_askSocket a).bind fun q x x' _ hx => (steps_askSocket b).bind fun r y y' _ hy => ?_
  rw [hx.isOutput, hy.isOutput]
  split
  · exact .pure rfl
  · exact .pure rfl
  · exact .throw rfl

theorem steps_requireUnplugged (s : SocketId) :
    p.Steps (requireUnplugged s) (requireUnplugged s) Same := by
  refine (steps_askSocket s).bind fun q x x' _ hx => ?_
  rw [hx.peer]
  split
  · exact .throw rfl
  · exact .pure rfl

theorem steps_tyOrFresh (s : SocketId) : p.Steps (tyOrFresh s) (tyOrFresh s) Types := by
  refine Parallel.bind (steps_ask (R := fun q => Option.Rel q.Types)
    fun _ _ _ _ hg => hg.socketTy s) fun q t? t?' _ h => ?_
  cases h with
  | some ht => exact .pure ht
  | none => exact steps_onPool inStep_fresh

theorem steps_connect (a b : SocketId) : p.Steps (connect a b) (connect a b) Substs := by
  refine (steps_orient a b).bind fun q link _ _ h => ?_
  subst h
  obtain ⟨output, input⟩ := link
  refine (steps_requireUnplugged output).bind fun q _ _ _ _ => ?_
  refine (steps_requireUnplugged input).bind fun q _ _ _ _ => ?_
  refine (steps_askSocket input).bind fun q x x' _ hx => ?_
  have hcycle : q.Steps (ask (·.wouldCycle output input)) (ask (·.wouldCycle output input)) Same :=
    steps_ask_eq fun _ _ hg => by rw [hg.wouldCycle_eq]
  refine hcycle.bind fun q cycle _ _ h => ?_
  subst h
  rw [hx.block]
  dsimp only
  split
  · exact .throw rfl
  refine (steps_tyOrFresh output).bind fun q t t' _ ht => ?_
  refine (steps_tyOrFresh input).bind fun r u u' hr hu => ?_
  have ht := lasting_types hr ht
  have hunify := ht.unify hu
  generalize unify t u = outcome at hunify ⊢
  generalize unify t' u' = outcome' at hunify ⊢
  cases hunify with
  | error he => exact .throw (congrArg WorkspaceError.incompatible he)
  | @ok s s' hs =>
      have hlink : r.Edits
          (do GraphM.link output input; GraphM.setTy output (some t); GraphM.setTy input (some u))
          (do GraphM.link output input; GraphM.setTy output (some t'); GraphM.setTy input (some u'))
          Eq :=
        (edits_link output input).bind fun _ _ _ _ _ => (edits_setTy output ht).bind
          fun _ _ _ _ _ => edits_setTy input hu
      refine (steps_onMain hlink).bind fun q _ _ hq _ => ?_
      refine (steps_askSocket output).bind fun q' y y' hq' hy => ?_
      have hs := lasting_substs (hq.trans hq') hs
      refine (steps_modify fun ws ws' hws => (hws.substitute hs .main).substitute hs .flyout).bind
        fun v _ _ hv _ => ?_
      refine (steps_requestRender _ _ _ _).bind fun v' _ _ hv' _ => ?_
      exact steps_requestSweep.bind fun v'' _ _ hv'' _ =>
        .pure (lasting_substs (hv.trans (hv'.trans hv'')) hs)

theorem steps_inputNamed (b : BlockId) (slot : String) :
    p.Steps (ask (·.inputNamed b slot)) (ask (·.inputNamed b slot)) Same :=
  steps_ask_eq fun _ _ hg => by rw [hg.inputNamed_eq]

theorem steps_plug (child parent : BlockId) (slot : String) :
    p.Steps (plug child parent slot) (plug child parent slot) Substs := by
  refine (steps_askBlock child).bind fun q x x' _ hx => ?_
  rw [hx.output]
  cases x.output with
  | none => exact .throw rfl
  | some output =>
      refine (steps_inputNamed parent slot).bind fun r input _ _ h => ?_
      subst h
      exact steps_connect output input

theorem steps_pluggedOutput (parent child : BlockId) :
    p.Steps (pluggedOutput parent child) (pluggedOutput parent child) Same := by
  refine (steps_askBlock child).bind fun q x x' _ hx => ?_
  rw [hx.output]
  cases x.output with
  | none => exact .throw rfl
  | some output =>
      have hplugged : q.Steps (ask (·.pluggedBlock output)) (ask (·.pluggedBlock output)) Same :=
        steps_ask_eq fun _ _ hg => by rw [hg.pluggedBlock_eq]
      refine hplugged.bind fun r plugged _ _ h => ?_
      subst h
      cases plugged with
      | none => exact .throw rfl
      | some b =>
          dsimp only
          split
          · exact .pure rfl
          · exact .throw rfl

theorem steps_unplug (parent child : BlockId) :
    p.Steps (unplug parent child) (unplug parent child) Same := by
  refine (steps_pluggedOutput parent child).bind fun q output _ _ h => ?_
  subst h
  refine (steps_onMain (edits_unlink output)).bind fun q _ _ _ _ => ?_
  exact (steps_refresh _).bind fun _ _ _ _ _ => steps_requestSweep

theorem steps_removeBlock (b : BlockId) : p.Steps (removeBlock b) (removeBlock b) Same := by
  have hneighbours : p.Steps (ask (·.neighbours b)) (ask (·.neighbours b)) Same :=
    steps_ask_eq fun _ _ hg => by rw [hg.neighbours_eq]
  refine hneighbours.bind fun q neighbours _ _ h => ?_
  subst h
  refine (steps_onMain (edits_removeBlock b)).bind fun q _ _ _ _ => ?_
  exact (steps_refresh _).bind fun _ _ _ _ _ => steps_requestSweep

/-! ### Changing blocks -/

theorem steps_setKind (b : BlockId) {f : BlockKind → BlockKind}
    (hf : ∀ kind, kind.Ground → (f kind).Ground) : p.Steps (setKind b f) (setKind b f) Same :=
  steps_onMain <| edits_updateBlock b fun _ _ hx =>
    ⟨⟨congrArg f hx.kind, hx.output, hx.inputs⟩, hf _ hx.ground, hx.params, hx.warned⟩

theorem steps_finishEdit (touched : List BlockId) :
    p.Steps (finishEdit touched) (finishEdit touched) Reports := by
  have hrest : ∀ q : Pairing, q.Steps (do let report ← infer; requestSweep; return report)
      (do let report ← infer; requestSweep; return report) Reports := fun q =>
    steps_infer.bind fun _ _ _ _ h => steps_requestSweep.bind fun _ _ _ _ _ =>
      .pure ⟨h.roots, h.warned⟩
  refine (steps_componentsOf touched).bind fun q members _ _ h => ?_
  subst h
  refine (steps_reset members).bind fun q detached _ _ h => ?_
  subst h
  refine (steps_componentsOf detached).bind fun q found _ _ h => ?_
  subst h
  dsimp only
  split
  · exact (steps_reset _).bind fun q _ _ _ _ => hrest q
  · exact hrest q

theorem steps_edit (b : BlockId) {f : BlockKind → Except String BlockKind}
    (hf : ∀ kind kind', f kind = .ok kind' → kind'.Ground) :
    p.Steps (edit b f) (edit b f) Reports := by
  refine (steps_askBlock b).bind fun q x x' _ hx => ?_
  rw [hx.kind]
  cases hkind : f x.kind with
  | error reason => exact .throw rfl
  | ok kind =>
      exact (steps_setKind b fun _ _ => hf _ _ hkind).bind fun _ _ _ _ _ => steps_finishEdit [b]

theorem steps_functionAt (b : BlockId) : p.Steps (functionAt b) (functionAt b) Same := by
  refine (steps_askBlock b).bind fun q x x' _ hx => ?_
  rw [hx.kind]
  cases x.kind.function? with
  | none => exact .throw rfl
  | some f => exact .pure rfl

theorem steps_renameParameter (b : BlockId) (old new : String) :
    p.Steps (renameParameter b old new) (renameParameter b old new) Reports := by
  refine (steps_functionAt b).bind fun q f _ _ h => ?_
  subst h
  obtain ⟨name, params⟩ := f
  dsimp only
  split
  · exact .throw rfl
  have huses : q.Steps (ask (·.usesOf b old)) (ask (·.usesOf b old)) Same :=
    steps_ask_eq fun _ _ hg => by rw [hg.usesOf_eq]
  refine huses.bind fun q uses _ _ h => ?_
  subst h
  split
  · exact .throw rfl
  refine (steps_setKind b (f := fun _ => .function name (params.replace old new))
    fun _ _ => trivial).bind fun q _ _ _ _ => ?_
  exact Parallel.bind (.forM_eq fun _ use _ => steps_setKind use fun _ _ => trivial)
    fun _ _ _ _ _ => steps_finishEdit [b]

theorem steps_addParameter (b : BlockId) (param : String) :
    p.Steps (addParameter b param) (addParameter b param) Reports := by
  refine (steps_functionAt b).bind fun q f _ _ h => ?_
  subst h
  obtain ⟨name, params⟩ := f
  dsimp only
  split
  · exact .throw rfl
  refine (steps_setKind b (f := fun _ => .function name (params ++ [param]))
    fun _ _ => trivial).bind fun q _ _ _ _ => ?_
  refine Parallel.get.bind fun q ws ws' _ hws => ?_
  rw [hws.shape.callersOf_eq]
  exact Parallel.bind (.forM_eq fun _ caller _ => steps_setKind caller (ground_mapArity _))
    fun _ _ _ _ _ => steps_finishEdit _

theorem steps_plugArgument (caller : BlockId) (index : Nat) (output : Option SocketId) :
    p.Steps (plugArgument caller index output) (plugArgument caller index output) Same := by
  cases output with
  | none => exact .pure rfl
  | some output =>
      refine (steps_inputNamed caller (Slot.arg index)).bind fun q input _ _ h => ?_
      subst h
      exact steps_onMain (edits_link output input)

theorem steps_removeArgument (caller : BlockId) (inputs : List SocketId) (index : Nat) :
    p.Steps (removeArgument caller inputs index) (removeArgument caller inputs index) Same := by
  refine (Parallel.mapM_eq fun _ input _ => steps_onMain (edits_unlink input)).bind
    fun q plugged _ _ h => ?_
  subst h
  have hrest : ∀ (r : Pairing) (removed : Option BlockId), r.Steps
      (do
        setKind caller (·.mapArity (· - 1))
        let _ ← renew caller
        (plugged.eraseIdx index).zipIdx.forM fun arg => plugArgument caller arg.2 arg.1
        return removed)
      (do
        setKind caller (·.mapArity (· - 1))
        let _ ← renew caller
        (plugged.eraseIdx index).zipIdx.forM fun arg => plugArgument caller arg.2 arg.1
        return removed) Same := fun r removed =>
    (steps_setKind caller (ground_mapArity _)).bind fun _ _ _ _ _ =>
      (steps_renew caller).bind fun _ _ _ _ _ =>
        Parallel.bind (.forM_eq fun _ arg _ => steps_plugArgument caller arg.2 arg.1)
          fun _ _ _ _ _ => .pure rfl
  cases plugged[index]?.join with
  | none =>
      refine Parallel.bind (.pure (R := Same) rfl) fun r removed _ _ h => ?_
      subst h
      exact hrest r removed
  | some output =>
      have hblock : q.Steps (some <$> (·.block) <$> ask (·.socket output))
          (some <$> (·.block) <$> ask (·.socket output)) Same :=
        ((steps_askSocket output).map (Q := Same) fun _ _ _ _ hx => hx.block.symm).map
          fun _ _ _ _ h => congrArg some h
      refine hblock.bind fun r removed _ _ h => ?_
      subst h
      exact hrest r removed

theorem steps_removeParameter (b : BlockId) (param : String) :
    p.Steps (removeParameter b param) (removeParameter b param) Reports := by
  refine (steps_functionAt b).bind fun q f _ _ h => ?_
  subst h
  obtain ⟨name, params⟩ := f
  dsimp only
  split
  · exact .throw rfl
  refine Parallel.get.bind fun q ws ws' _ hws => ?_
  rw [hws.shape.callersOf_eq]
  refine Parallel.bind (.mapM_eq fun r caller _ => ?_) fun q calls _ _ h => ?_
  · refine Parallel.bind (.mapM_eq fun _ i _ => steps_inputNamed caller (Slot.arg i))
      fun _ inputs _ _ h => ?_
    subst h
    exact .pure rfl
  · subst h
    refine (steps_setKind b (f := fun _ => .function name (params.erase param))
      fun _ _ => trivial).bind fun q _ _ _ _ => ?_
    refine Parallel.bind (.mapM_eq fun r call _ => ?_) fun q touched _ _ h => ?_
    · refine (steps_removeArgument call.1 call.2 _).bind fun _ removed _ _ h => ?_
      subst h
      exact .pure rfl
    · subst h
      exact steps_finishEdit _

end Pairing

end Plugboard
