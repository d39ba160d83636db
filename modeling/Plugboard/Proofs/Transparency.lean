import Plugboard.Proofs.PairedOperations

/-!
# Collections are transparent

A collection gives type variables back that occur nowhere, and their names are handed out again.
Nothing but the choice of names depends on it: two runs of the same commands, one of which has
more collections, refuse the same commands and lead to workspaces that differ in names only.
-/

namespace Plugboard

open Equiv

/-- The same reply, up to names, the texts of warnings and what is counted or drawn. -/
inductive Reply.Matches (π : Perm String) : Reply → Reply → Prop
  | done : Matches π .done .done
  | block (b : BlockId) : Matches π (.block b) (.block b)
  | subst {s s' : Subst} (h : s.Renamed π s') : Matches π (.subst s) (.subst s')
  | report {r r' : Report} (hroots : r'.roots = r.roots)
      (hwarned : r'.warnings.map Prod.fst = r.warnings.map Prod.fst) :
      Matches π (.report r) (.report r')
  | typeVar (v : String) : Matches π (.typeVar v) (.typeVar (π v))
  | swept (census census' : Option Census) : Matches π (.swept census) (.swept census')
  | renders (blocks blocks' : List (Canvas × BlockId)) :
      Matches π (.renders blocks) (.renders blocks')

namespace Workspace

/-- The same blocks, kinds, links and warned blocks, and the types of the first workspace, with
their variables renamed, on the sockets and type parameters of the second. -/
structure Renamed (π : Perm String) (ws ws' : Workspace) : Prop where
  shape : ∀ canvas, (ws'.graph canvas).shape = (ws.graph canvas).shape
  warned : ∀ canvas b,
    ((ws'.graph canvas).warningAt b).isSome = ((ws.graph canvas).warningAt b).isSome
  tyAt : ∀ canvas s, (ws'.graph canvas).tyAt s = ((ws.graph canvas).tyAt s).map (Ty.rename π)
  paramAt : ∀ canvas b name,
    (ws'.graph canvas).paramAt b name = ((ws.graph canvas).paramAt b name).map (Ty.rename π)

/-- The runs that lead to the workspaces consist of the same commands, but for collections that
only the second one has. -/
inductive WithCollections : Workspace → Workspace → Prop
  | start (settings : Settings) : WithCollections (ofSettings settings) (ofSettings settings)
  | after {ws ws' : Workspace} {command : Command} (h : WithCollections ws ws')
      (hallowed : command.AddsGround ws) : WithCollections (ws.after command) (ws'.after command)
  | collect {ws ws' : Workspace} (h : WithCollections ws ws') :
      WithCollections ws (ws'.after .collect)

/-- A command has the same outcome on both workspaces, as far as names do not matter. Names that
occur are renamed as before. -/
def SameOutcome (π : Perm String) (ws ws' : Workspace) (command : Command) : Prop :=
  ∃ ρ : Perm String, (∀ v, ws.Occurs v → ρ v = π v) ∧
    Outcomes (Reply.Matches ρ) (fun e e' => e' = e.rename ρ)
      (ws.perform command).1 (ws'.perform command).1 ∧
    (ws.after command).Renamed ρ (ws'.after command)

/-- The workspaces differ in names only, and so does what can be done with them. -/
def Indistinguishable (ws ws' : Workspace) : Prop :=
  ∃ π : Perm String, ws.Renamed π ws' ∧
    ∀ command : Command, command.AddsGround ws → SameOutcome π ws ws' command

end Workspace

namespace Pairing

open WorkspaceM

variable {p : Pairing} {ws ws' : Workspace}

theorem types?_of_eq_map {t t' : Option Ty} (h : t' = t.map (Ty.rename p.rename))
    (hover : ∀ u, t = some u → u.Over p.known) : Option.Rel p.Types t t' := by
  subst h
  cases t with
  | none => exact .none
  | some t => exact .some ⟨hover t rfl, rfl⟩

theorem Workspaces.renamed (h : p.Workspaces ws ws') : ws.Renamed p.rename ws' where
  shape canvas := (h.canvases canvas).sameShape.shape_eq
  warned canvas b := by
    have hb := (h.canvases canvas).blocks b
    rw [Graph.warningAt, Graph.warningAt]
    generalize (ws.graph canvas).blocks[b]? = x at hb ⊢
    generalize (ws'.graph canvas).blocks[b]? = x' at hb ⊢
    cases hb with
    | none => rfl
    | some hx => exact hx.warned
  tyAt canvas s := by
    have hs := (h.canvases canvas).sockets s
    rw [Graph.tyAt, Graph.tyAt]
    generalize (ws.graph canvas).sockets[s]? = x at hs ⊢
    generalize (ws'.graph canvas).sockets[s]? = x' at hs ⊢
    cases hs with
    | none => rfl
    | some hx => exact eq_map_of_types? hx.ty
  paramAt canvas b name := by
    have hb := (h.canvases canvas).blocks b
    rw [Graph.paramAt, Graph.paramAt]
    generalize (ws.graph canvas).blocks[b]? = x at hb ⊢
    generalize (ws'.graph canvas).blocks[b]? = x' at hb ⊢
    cases hb with
    | none => rfl
    | some hx => exact eq_map_of_types? (hx.params name)

/-- A command that sweeps nothing does the same on both sides. -/
theorem steps_perform {command : Command} (hallowed : command.AddsGround ws)
    (hcollect : command ≠ .collect) (hpoll : ∀ now, command ≠ .poll now) :
    p.Steps (perform command) (perform command) fun q => Reply.Matches q.rename := by
  have hreport : ∀ {x : WorkspaceM Report}, p.Steps x x Reports →
      p.Steps (Reply.report <$> x) (Reply.report <$> x) fun q => Reply.Matches q.rename :=
    fun hx => hx.map fun _ _ _ _ h => .report h.roots h.warned
  have hblock : ∀ {x : WorkspaceM BlockId}, p.Steps x x Same →
      p.Steps (Reply.block <$> x) (Reply.block <$> x) fun q => Reply.Matches q.rename :=
    fun hx => hx.map fun _ b _ _ h => h ▸ .block b
  have hsubst : ∀ {x : WorkspaceM Subst}, p.Steps x x Substs →
      p.Steps (Reply.subst <$> x) (Reply.subst <$> x) fun q => Reply.Matches q.rename :=
    fun hx => hx.map fun _ _ _ _ h => .subst h.renamed
  have hdone : ∀ {x : WorkspaceM Unit}, p.Steps x x Same →
      p.Steps ((fun _ => Reply.done) <$> x) ((fun _ => Reply.done) <$> x)
        fun q => Reply.Matches q.rename :=
    fun hx => hx.map fun _ _ _ _ _ => .done
  cases command with
  | add canvas kind => exact hblock (steps_addBlock canvas hallowed)
  | addOperator name => exact hblock (steps_addOperator name)
  | addCase typeName => exact hblock (steps_addCase typeName)
  | remove b => exact hdone (steps_removeBlock b)
  | connect a b => exact hsubst (steps_connect a b)
  | plug child parent slot => exact hsubst (steps_plug child parent slot)
  | unplug parent child => exact hdone (steps_unplug parent child)
  | infer => exact hreport steps_infer
  | renameParameter b old new => exact hreport (steps_renameParameter b old new)
  | addParameter b name => exact hreport (steps_addParameter b name)
  | removeParameter b name => exact hreport (steps_removeParameter b name)
  | addGenerator b name =>
      exact hreport (steps_edit b fun _ _ => BlockKind.ground_of_editComprehension)
  | removeGenerator b name =>
      exact hreport (steps_edit b fun _ _ => BlockKind.ground_of_editComprehension)
  | addGuard b => exact hreport (steps_edit b fun _ _ => BlockKind.ground_of_editComprehension)
  | removeGuard b => exact hreport (steps_edit b fun _ _ => BlockKind.ground_of_editComprehension)
  | setItems b items => exact hreport (steps_edit b fun _ _ => BlockKind.ground_of_setItems)
  | allocate =>
      have hfresh : p.Steps (onPool VarPool.allocate) (onPool VarPool.allocate)
          fun q v v' => q.Types (.var v) (.var v') :=
        steps_onPool (inStep_modifyGet p.exists_fresh)
      refine hfresh.map fun q v v' _ h => ?_
      have hname : v' = q.rename v := by simpa using h.eq
      exact hname ▸ .typeVar v
  | collect => exact (hcollect rfl).elim
  | requestSweep => exact hdone steps_requestSweep
  | poll now => exact (hpoll now rfl).elim
  | wait millis =>
      exact .modifyGet fun ws ws' hws => ⟨p, le_rfl, .done, hws.left, hws.right, fun canvas => by
        cases canvas with
        | main => exact hws.canvases .main
        | flyout => exact hws.canvases .flyout⟩
  | takeRenders =>
      exact .modifyGet fun ws ws' hws => ⟨p, le_rfl, .renders _ _, hws.left, hws.right,
        fun canvas => by
          cases canvas with
          | main => exact hws.canvases .main
          | flyout => exact hws.canvases .flyout⟩

end Pairing

namespace Workspace

open Pairing

variable {π : Perm String} {ws ws' : Workspace}

namespace Renamed

theorem congr (h : ws.Renamed π ws') {ws₁ ws₁' : Workspace}
    (hgraph : ∀ canvas, ws₁.graph canvas = ws.graph canvas)
    (hgraph' : ∀ canvas, ws₁'.graph canvas = ws'.graph canvas) : ws₁.Renamed π ws₁' where
  shape canvas := by
    rw [hgraph, hgraph', h.shape]
  warned canvas b := by
    rw [hgraph, hgraph', h.warned]
  tyAt canvas s := by
    rw [hgraph, hgraph', h.tyAt]
  paramAt canvas b name := by
    rw [hgraph, hgraph', h.paramAt]

theorem refl (ws : Workspace) : ws.Renamed 1 ws :=
  have hid : ∀ t : Option Ty, t = t.map (Ty.rename (1 : Perm String)) := fun t => by
    cases t with
    | none => rfl
    | some t => exact congrArg some (Ty.bind_var t).symm
  ⟨fun _ => rfl, fun _ _ => rfl, fun _ _ => hid _, fun _ _ _ => hid _⟩

/-- It is enough to look at the places that are there. -/
theorem of_keptAt (hshape : ws'.main.shape = ws.main.shape)
    (hwarned : ∀ b, (ws'.main.warningAt b).isSome = (ws.main.warningAt b).isSome)
    (hkept : ∀ {b place}, ws.main.shape.Hosts b place →
      ws'.main.keptAt place = (ws.main.keptAt place).map (Ty.rename π))
    (hflyout : ws'.flyout = ws.flyout)
    (hsame : ∀ {place t}, ws.flyout.keptAt place = some t → t.rename π = t) :
    ws.Renamed π ws' := by
  have hmain : ∀ place, ws'.main.keptAt place = (ws.main.keptAt place).map (Ty.rename π) := by
    intro place
    by_cases hplace : ∃ b, ws.main.shape.Hosts b place
    · exact hkept hplace.choose_spec
    · rw [Option.eq_none_iff_forall_ne_some.2 fun t ht =>
          hplace (Graph.exists_hosts_of_keptAt ht),
        Option.eq_none_iff_forall_ne_some.2 fun t ht =>
          hplace (hshape ▸ Graph.exists_hosts_of_keptAt ht)]
      rfl
  have hother : ∀ place, ws'.flyout.keptAt place = (ws.flyout.keptAt place).map (Ty.rename π) := by
    intro place
    rw [hflyout]
    cases ht : ws.flyout.keptAt place with
    | none => rfl
    | some t => exact congrArg some (hsame ht).symm
  refine ⟨fun canvas => ?_, fun canvas b => ?_, fun canvas s => ?_, fun canvas b name => ?_⟩ <;>
    cases canvas
  · exact hshape
  · exact congrArg Graph.shape hflyout
  · exact hwarned b
  · exact congrArg (fun g => (Graph.warningAt g b).isSome) hflyout
  · exact hmain (.socket s)
  · exact hother (.socket s)
  · exact hmain (.param b name)
  · exact hother (.param b name)

theorem trans {ρ : Perm String} {ws'' : Workspace} (h : ws.Renamed π ws')
    (h' : ws'.Renamed ρ ws'') : ws.Renamed (ρ * π) ws'' where
  shape canvas := (h'.shape canvas).trans (h.shape canvas)
  warned canvas b := (h'.warned canvas b).trans (h.warned canvas b)
  tyAt canvas s := by
    rw [h'.tyAt, h.tyAt, Option.map_map]
    exact congrFun (congrArg Option.map (funext (Ty.rename_rename π ρ))) _
  paramAt canvas b name := by
    rw [h'.paramAt, h.paramAt, Option.map_map]
    exact congrFun (congrArg Option.map (funext (Ty.rename_rename π ρ))) _

variable (h : ws.Renamed π ws')

include h

theorem keptAt (place : Place) :
    ws'.main.keptAt place = (ws.main.keptAt place).map (Ty.rename π) := by
  cases place with
  | socket s => exact h.tyAt .main s
  | param b name => exact h.paramAt .main b name

theorem occurs {v : String} (hv : ws.Occurs v) : ws'.Occurs (π v) := by
  obtain ⟨canvas, t, hv, ⟨s, hs⟩ | ⟨b, name, hb⟩⟩ := hv
  · exact ⟨canvas, t.rename π, Ty.apply_mem_vars_rename.2 hv,
      .inl ⟨s, (h.tyAt canvas s).trans (congrArg _ hs)⟩⟩
  · exact ⟨canvas, t.rename π, Ty.apply_mem_vars_rename.2 hv,
      .inr ⟨b, name, (h.paramAt canvas b name).trans (congrArg _ hb)⟩⟩

/-- What differs in names is paired, whatever the pools are. -/
theorem exists_pairing (hws : ws.Accounted ws.pool) (hws' : ws'.Accounted ws'.pool) :
    ∃ p : Pairing, p.rename = π ∧ (∀ v, ws.Occurs v → p.known v) ∧ p.Workspaces ws ws' := by
  let p : Pairing :=
    { rename := π
      known := ws.Occurs
      left := ws.pool
      right := ws'.pool
      left_distinct := hws.distinct
      right_distinct := hws'.distinct
      left_used := fun _ => hws.isUsed_of_occurs
      right_used := fun _ hv => hws'.isUsed_of_occurs (h.occurs hv) }
  refine ⟨p, rfl, fun _ => id, rfl, rfl, fun canvas => ?_⟩
  have hshape := Graph.SameShape.of_shape_eq (h.shape canvas)
  refine ⟨fun b => ?_, fun s => ?_, hshape.nextBlock, hshape.nextSocket⟩
  · have hb := hshape.blocks b
    have hwarned := h.warned canvas b
    have hparams := h.paramAt canvas b
    have hoccurs : ∀ name t, (ws.graph canvas).paramAt b name = some t → t.Over p.known :=
      fun name t ht v hv => ⟨canvas, t, hv, .inr ⟨b, name, ht⟩⟩
    have hground : ∀ block, (ws.graph canvas).blocks[b]? = some block → block.kind.Ground :=
      fun _ => (hws.every canvas).kind
    simp only [Graph.warningAt, Graph.paramAt] at hwarned hparams hoccurs
    generalize (ws.graph canvas).blocks[b]? = x at hb hwarned hparams hoccurs hground ⊢
    generalize (ws'.graph canvas).blocks[b]? = x' at hb hwarned hparams ⊢
    cases hb with
    | none => exact .none
    | some hx =>
        exact .some ⟨hx, hground _ rfl, fun name => types?_of_eq_map (hparams name) (hoccurs name),
          hwarned⟩
  · have hs := hshape.sockets s
    have hty := h.tyAt canvas s
    have hoccurs : ∀ t, (ws.graph canvas).tyAt s = some t → t.Over p.known :=
      fun t ht v hv => ⟨canvas, t, hv, .inl ⟨s, ht⟩⟩
    simp only [Graph.tyAt] at hty hoccurs
    generalize (ws.graph canvas).sockets[s]? = x at hs hty hoccurs ⊢
    generalize (ws'.graph canvas).sockets[s]? = x' at hs hty ⊢
    cases hs with
    | none => exact .none
    | some hx => exact .some ⟨hx, types?_of_eq_map hty hoccurs⟩

end Renamed

theorem exists_swept {command : Command} (h : command = .collect ∨ ∃ now, command = .poll now)
    (ws : Workspace) : ∃ census, (ws.perform command).1 = .ok (.swept census) ∧
      ∀ canvas, (ws.after command).graph canvas = ws.graph canvas := by
  obtain rfl | ⟨now, rfl⟩ := h
  · exact ⟨_, rfl, fun canvas => by cases canvas <;> rfl⟩
  · refine ⟨_, rfl, fun canvas => ?_⟩
    change (ws.pollSweep now).2.graph canvas = _
    rw [pollSweep]
    split <;> cases canvas <;> rfl

theorem Renamed.sameOutcome (h : ws.Renamed π ws') (hws : ws.Accounted ws.pool)
    (hws' : ws'.Accounted ws'.pool) {command : Command} (hallowed : command.AddsGround ws) :
    SameOutcome π ws ws' command := by
  by_cases hsweep : command = .collect ∨ ∃ now, command = .poll now
  · obtain ⟨census, hreply, hgraph⟩ := exists_swept hsweep ws
    obtain ⟨census', hreply', hgraph'⟩ := exists_swept hsweep ws'
    refine ⟨π, fun _ _ => rfl, ?_, h.congr hgraph hgraph'⟩
    rw [hreply, hreply']
    exact .ok (.swept _ _)
  · rw [not_or, not_exists] at hsweep
    obtain ⟨p, rfl, hknown, hpaired⟩ := h.exists_pairing hws hws'
    obtain ⟨q, hle, hreply, hpaired⟩ :=
      steps_perform hallowed hsweep.1 hsweep.2 ws ws' hpaired
    exact ⟨q.rename, fun v hv => hle.rename v (hknown v hv), hreply, hpaired.renamed⟩

theorem WithCollections.reachable (h : WithCollections ws ws') :
    ws.Reachable Command.AddsGround ∧ ws'.Reachable Command.AddsGround := by
  induction h with
  | start settings => exact ⟨.start settings, .start settings⟩
  | after _ hallowed ih => exact ⟨ih.1.after hallowed, ih.2.after hallowed⟩
  | collect _ ih => exact ⟨ih.1, ih.2.after trivial⟩

theorem WithCollections.exists_renamed (h : WithCollections ws ws') :
    ∃ π : Perm String, ws.Renamed π ws' := by
  induction h with
  | start settings => exact ⟨1, .refl _⟩
  | @after ws ws' command h hallowed ih =>
      obtain ⟨π, hrenamed⟩ := ih
      obtain ⟨ρ, -, -, hafter⟩ :=
        hrenamed.sameOutcome h.reachable.1.accounted h.reachable.2.accounted hallowed
      exact ⟨ρ, hafter⟩
  | collect _ ih =>
      obtain ⟨π, hrenamed⟩ := ih
      exact ⟨π, hrenamed.congr (fun _ => rfl) (exists_swept (.inl rfl) _).choose_spec.2⟩

/-- What collections change is the names of type variables, and it does not show in anything that
comes later. -/
theorem WithCollections.indistinguishable (h : WithCollections ws ws') :
    ws.Indistinguishable ws' := by
  obtain ⟨π, hrenamed⟩ := h.exists_renamed
  exact ⟨π, hrenamed, fun command =>
    hrenamed.sameOutcome h.reachable.1.accounted h.reachable.2.accounted⟩

/-- A name is taken from the pool and, in the second run, given back before a lambda is added. -/
theorem indistinguishable_lambda :
    let ws := [.allocate, .add .main (.lambda "x")].foldl after (ofSettings default)
    let ws' := [.allocate, .collect, .add .main (.lambda "x")].foldl after (ofSettings default)
    ws.main.tyAt ⟨0⟩ ≠ ws'.main.tyAt ⟨0⟩ ∧ ws.Indistinguishable ws' := by
  refine ⟨?_, WithCollections.indistinguishable ?_⟩
  · cbv
    simp
  · exact .after (.collect (.after (.start default) trivial)) trivial

end Workspace

end Plugboard
