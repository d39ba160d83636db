import Plugboard.Proofs.Consistency
import Plugboard.Proofs.GroupTypes
import Plugboard.Proofs.Locality
import Plugboard.Proofs.Principality

/-!
# Functions without warnings are accepted

The members of a group that causes no error have types by the rules, where the group is bound to
what it is found to be. Groups that come later add closed bindings of new names, which makes no
difference to that. So if no warning is left in the end, inference accepts every function by itself
in the environment of the run.
-/

namespace Plugboard

open Shape Workspace

/-- What has a type by the rules is accepted, whichever names have been handed out before. -/
theorem HasType.exists_run {env : Env} {e : Term} {u : Ty} (h : HasType env e u)
    (henv : env.Closed) (hlits : e.LitsGround) {st : InferState} (hpool : st.pool.Distinct) :
    ∃ s t st', (e.infer env).run st = (.ok (s, t), st') := by
  have hadmissible : env.Admissible st.pool := fun name scheme hlookup =>
    .inl (henv name scheme hlookup)
  have hrel : env.Relates (Scheme.AtMost Subst.empty.image) (env.apply .empty) :=
    .apply_right fun _ _ hlookup => Scheme.atMost_applyScheme (hadmissible.avoids _ hlookup)
  rw [henv.apply_eq] at hrel
  obtain ⟨s, t, pool', hinfers, -⟩ := h.exists_infers hpool hadmissible.guarded hlits hrel
  obtain ⟨notes, hrun⟩ := hinfers.exists_run st.notes
  exact ⟨s, t, _, hrun⟩

namespace Graph

variable {g g' : Graph} {env env' : Env} {f : BlockId}

/-- By the rules the function has a type in the environment, as a function of its holes. -/
def Accepts (g : Graph) (env : Env) (f : BlockId) : Prop :=
  ∃ l u, g.lower f = .ok l ∧ HasType env l.toSection u

/-- No local definition in a function takes a name that is bound around it. -/
def NewLets (g : Graph) : Prop :=
  ∀ {f name l}, g.shape.Defines f name → g.lower f = .ok l → l.term.NewLets fun _ => False

theorem Accepts.widen (h : g.Accepts env f) (henv : env.Widens env') : g.Accepts env' f := by
  obtain ⟨l, u, hl, htyped⟩ := h
  exact ⟨l, u, hl, htyped.widen henv⟩

theorem Accepts.exists_run (h : g.Accepts env f) (henv : env.Closed) (hground : g.Ground) :
    ∃ l, g.lower f = .ok l ∧ ∀ st : InferState, st.pool.Distinct →
      ∃ s st', (l.inferSection env).run st = (.ok s, st') := by
  obtain ⟨l, u, hl, htyped⟩ := h
  refine ⟨l, hl, fun st hpool => ?_⟩
  obtain ⟨s, t, st', hrun⟩ := htyped.exists_run henv
    (Lowered.litsGround_toSection (litsGround_lower hground hl)) hpool
  exact ⟨s, st', run_bind hrun⟩

end Graph

namespace Workspace

variable {ws : Workspace} {env : Env} {group : List BlockId}

/-- A group that causes no error is accepted where its members are bound. -/
theorem accepts_of_infer (hground : ws.main.Ground) (hdistinct : ws.pool.Distinct)
    (hnames : ws.main.shape.NamesApart) (hlets : ws.main.NewLets)
    (henv : env.Serves ws.main.shape.Local)
    (herrors : ((FunctionGroup.infer env (group.filterMap ws.member?)).run
      (InferM.ofPool ws.pool)).1.errors = []) {f : BlockId} (hf : f ∈ group) {name : String}
    (hdefines : ws.main.shape.Defines f name) :
    ws.main.Accepts (env.insertMany ((FunctionGroup.infer env (group.filterMap ws.member?)).run
      (InferM.ofPool ws.pool)).1.schemes) f := by
  have hscope : env.NamesIn fun name => ¬ ws.main.shape.Binds name := by
    intro name scheme hlookup hbinds
    rw [henv.apart (.inl hbinds)] at hlookup
    cases hlookup
  have hm : ws.member? f = some ⟨f, name, ws.main.lower f⟩ :=
    member?_eq_some.2 ⟨hdefines, rfl, rfl⟩
  refine FunctionGroup.exists_hasType_infer henv.closed hscope
    (fun s hbinds => (hnames.binder hbinds).1 (.inr (.inr ⟨s, rfl⟩))) (fun m hm => ?_) hdistinct _
    (List.mem_filterMap.2 ⟨f, hf, hm⟩) fun e he => ?_
  · obtain ⟨-, hlowered, hdefines⟩ := of_mem_members hm
    refine ⟨fun hbinds => (hnames.binder hbinds).2.2 _ hdefines, fun l hl => ?_⟩
    rw [hlowered] at hl
    have hbinders : l.term.BindersIn ws.main.shape.Binds :=
      Graph.bindersIn_lower (fun hb name hname =>
        ⟨_, _, Graph.shape_ports_eq_some.2 ⟨_, hb, rfl⟩, hname⟩) hl
    exact ⟨Graph.litsGround_lower hground hl, (hlets hdefines hl).widen hbinders fun _ => .inr⟩
  · rw [herrors] at he
    exact List.not_mem_nil he

end Workspace

namespace WorkspaceM

variable {α : Type} {sh flyout : Shape} {pool₀ : VarPool} {ws : Workspace}

/-- An action that comes to the same in two runs side by side takes no warning away. -/
theorem Together.ends_warned {K : Set BlockId} {x : WorkspaceM α} (h : Together sh K ws ws x)
    (hshape : ws.main.shape = sh) :
    Ends x ws (fun _ ws' => ws.Warned → ws'.Warned) fun ws' => ws.Warned → ws'.Warned := by
  obtain ⟨⟨⟩, -, -, htwins⟩ := h ws ws (.self hshape K)
  obtain ⟨new, hnew⟩ := htwins.warned
  have hwarned : ws.Warned → Warned (x.run.run ws).2 := fun ⟨b, hb⟩ => ⟨b, (hnew b).1.2 (.inl hb)⟩
  unfold Ends
  split <;> rename_i heq <;> rwa [show StateT.run x.run ws = _ from heq] at hwarned

/-- All functions are accepted, if there is no warning. -/
theorem ends_globalEnv_accepted {g : Graph} (hsh : g.shape.Regular ∅) (hnames : g.shape.NamesApart)
    (hlets : g.NewLets) (hws : ws.Sound g.shape flyout pool₀) :
    Ends globalEnv ws (fun env ws' => ws'.Sound g.shape flyout pool₀ ∧ env.Serves g.shape.Local ∧
      (ws'.Warned ∨ ∀ f name, g.shape.Defines f name → g.Accepts env f)) fun _ => False := by
  have huniv : g.shape.Closed Set.univ := fun _ => Iff.rfl
  refine (ends_globalEnv hsh hnames (I := fun done env ws => ws.Warned ∨
    ∀ f ∈ done, ∀ name, g.shape.Defines f name → g.Accepts env f) ?_ hws
    (.inr fun f hf => (List.not_mem_nil hf).elim)).imp (fun env ws' h => ⟨h.1, h.2.1, ?_⟩)
    fun _ => id
  · intro done group env ws _ henv hgroup hws hdone
    have hsame : g.SameShape ws.main := .of_shape_eq hws.1.1.1
    have hwarned := (together_inferGroup hsh huniv env group fun _ _ _ _ =>
      Set.mem_univ _).ends_warned hws.1.1.1
    refine ((ends_inferGroup_kept hsh henv.closed group hws).and hwarned).imp
      (fun env' ws' h henv' hlookup => ?_) fun _ => And.left
    have hwidens : env.Widens env' := by
      refine ⟨fun {name scheme} hscheme => (hlookup name fun f hf hdefines => ?_).trans hscheme,
        fun hscheme => .inr (henv'.closed _ _ hscheme)⟩
      rw [(hgroup.fresh f hf name hdefines).2.2] at hscheme
      cases hscheme
    obtain ⟨⟨-, rfl, hkept⟩, hwarned⟩ := h
    rcases hdone with hdone | hdone
    · exact .inl (hwarned hdone)
    · refine hkept.imp_right fun ⟨herrors, _⟩ f hf name hdefines => ?_
      rcases List.mem_append.1 hf with hf | hf
      · exact (hdone f hf name hdefines).widen hwidens
      · have hshape : ws.main.shape = g.shape := hws.1.1.1
        rw [Graph.Accepts, ← hsame.lower_eq]
        rw [← hshape] at hnames henv hdefines
        refine accepts_of_infer hws.2.ground hws.2.distinct hnames (fun hdefines hl => ?_) henv
          herrors hf hdefines
        exact hlets (hshape ▸ hdefines) (hsame.lower_eq ▸ hl)
  · obtain ⟨done, hall, hwarned⟩ := h.2.2
    exact hwarned.imp_right fun haccepted f name hdefines =>
      haccepted f (hall f name hdefines) name hdefines

end WorkspaceM

namespace Workspace

open WorkspaceM

variable {ws : Workspace}

/-- An inference of the whole canvas comes to an environment, and then to what there is of roots. -/
theorem exists_run_of_infer {report : Report}
    (hreport : (ws.perform .infer).1 = .ok (.report report)) :
    ∃ env ws₁ count, (clearWarnings ws.main.topBlocks >>= fun _ => globalEnv).run ws =
        (.ok env, ws₁) ∧
      (total (inferRoot env) ws.main.topBlocks).run ws₁ = (.ok count, ws.after .infer) ∧
      report = ⟨count, (ws.after .infer).warnings⟩ := by
  have hrun : (WorkspaceM.perform .infer).run ws = (.ok (.report report), ws.after .infer) :=
    Prod.ext hreport rfl
  rw [WorkspaceM.perform, ← bind_pure_comp, run_bind_eq_ok] at hrun
  obtain ⟨report', _, hinfer, hreply⟩ := hrun
  cases hreply
  have hget : (get : WorkspaceM Workspace).run ws = (.ok ws, ws) := rfl
  rw [infer, run_bind hget, inferRoots, ← bind_assoc, run_bind_eq_ok] at hinfer
  obtain ⟨env, ws₁, henv, hinfer⟩ := hinfer
  obtain ⟨count, _, htotal, hinfer⟩ := run_bind_eq_ok.1 hinfer
  cases hinfer
  exact ⟨env, ws₁, count, henv, htotal, rfl⟩

/-- If no warning is left when the main canvas has been inferred, then every function is accepted in
the environment of the run. -/
theorem Reachable.accepted_of_infer
    (h : ws.Reachable fun ws command => command.AddsUnrepeated ws ∧ command.AddsGround ws)
    (hnames : ws.main.shape.NamesApart) (hlets : ws.main.NewLets) {report : Report}
    (hreport : (ws.perform .infer).1 = .ok (.report report)) (hwarnings : report.warnings = []) :
    ∃ env, ws.inferenceEnv = .ok env ∧ ∀ f name, ws.main.shape.Defines f name →
      ∃ l, ws.main.lower f = .ok l ∧ ∀ st : InferState, st.pool.Distinct →
        ∃ s st', (l.inferSection env).run st = (.ok s, st') := by
  have hsh : ws.main.shape.Regular ∅ := (h.mono fun _ _ => And.left).settled.1.1
  have hws : ws.Sound ws.main.shape ws.flyout.shape ws.pool :=
    ⟨⟨⟨rfl, rfl⟩, (h.mono fun _ _ => And.left).settled.2⟩, (h.mono fun _ _ => And.right).accounted⟩
  have hroots : ∀ root ∈ ws.main.topBlocks, ws.main.shape.Live root := fun root hroot =>
    Graph.live_of_isTop (List.mem_filter.1 hroot).2
  obtain ⟨env, ws₁, count, henv, htotal, rfl⟩ := exists_run_of_infer hreport
  have hfound : Ends (clearWarnings ws.main.topBlocks >>= fun _ => globalEnv) ws
      (fun env ws' => ws'.Sound ws.main.shape ws.flyout.shape ws.pool ∧
        env.Serves ws.main.shape.Local ∧
        (ws'.Warned ∨ ∀ f name, ws.main.shape.Defines f name → ws.main.Accepts env f))
      fun _ => False := by
    rw [ends_bind]
    exact ((steady_sound hsh).completes_clearWarnings hsh hroots ws hws).imp
      (fun _ ws₁ hws₁ => ends_globalEnv_accepted hsh hnames hlets hws₁) fun _ => id
  obtain ⟨hws₁, hserves, haccepted⟩ := hfound.of_run_eq henv
  have hkeeps := ((together_total fun root hroot => together_inferRoot hsh
    (fun _ => Iff.rfl : ws.main.shape.Closed Set.univ) env (hroots root hroot)
    (Set.mem_univ _)).ends_warned hws₁.1.1.1).of_run_eq htotal
  replace haccepted := haccepted.resolve_left fun hwarned =>
    not_warned hwarnings (hkeeps hwarned)
  exact ⟨env, congrArg Prod.fst henv, fun f name hdefines =>
    (haccepted f name hdefines).exists_run hserves.closed hws.2.ground⟩

set_option maxRecDepth 4000 in
/-- Of two functions with one name the second is never looked at: its body is a variable that
nothing binds, and there is no warning. -/
example :
    let ws := [.add .main (.function "f" []), .add .main (.function "f" []),
      .add .main (.variable "x"), .plug ⟨2⟩ ⟨1⟩ "RETURN"].foldl after (ofSettings default)
    (ws.perform .infer).1 = .ok (.report ⟨0, []⟩) ∧
      ws.main.lower ⟨1⟩ = .ok ⟨.var "x" (some (.block ⟨2⟩)), []⟩ := by
  intro ws
  subst ws
  constructor <;> cbv

end Workspace

end Plugboard
