import Plugboard.Proofs.ChosenNames
import Plugboard.Proofs.Isolation

/-!
# Workspaces without warnings are typed consistently

Groups of functions are inferred one after the other, each in an environment that has all of those
before, and then the other trees; whatever is on the canvas is below a block that this begins from.
So if no warning is left in the end, the types on every block fit together.
-/

namespace Plugboard

open Shape Workspace

/-- The block is there and has an output. -/
def Shape.Outputs (sh : Shape) (b : BlockId) : Prop :=
  ∃ p, sh.ports b = some p ∧ p.kind.hasOutput

/-- On a canvas of that shape the functions are inferred together. -/
def Shape.Groups (sh : Shape) (group : List BlockId) : Prop :=
  ∃ (ws : Workspace) (calls : CallGraph), ws.main.shape = sh ∧ ws.callGraph = .ok calls ∧
    group ∈ calls.groups

/-- What has an output is not a block without one, but below what is plugged into it. -/
theorem Shape.Wired.exists_input_of_outputs {sh : Shape} (h : sh.Wired) {b c : BlockId} {p : Ports}
    (hp : sh.ports b = some p) (hout : ¬ p.kind.hasOutput) (hc : sh.Below c b)
    (houtputs : sh.Outputs c) :
    ∃ input ∈ p.inputs, ∃ child, sh.guest input = some child ∧ sh.Below c child := by
  rcases Relation.ReflTransGen.cases_tail hc with rfl | ⟨child, hc, hplug⟩
  · obtain ⟨q, hq, hq'⟩ := houtputs
    cases hp.symm.trans hq
    exact (hout hq').elim
  · obtain ⟨input, hinput, hguest⟩ := (h.plugged_iff_input hp).1 hplug
    exact ⟨input, hinput, child, hguest, hc⟩

namespace WorkspaceM

theorem establishes_total {α γ : Type} {I : Workspace → Prop} {P : γ → Workspace → Prop}
    {action : α → WorkspaceM Nat} {new : α → Set γ} {xs : List α}
    (h : ∀ a ∈ xs, Establishes I P (new a) (action a)) :
    Establishes I P {c | ∃ a ∈ xs, c ∈ new a} (total action xs) :=
  .foldlM (fun sum a ha =>
    ((h a ha).bind fun count => .pure (sum + count)).mono Set.subset_union_left) 0

variable {sh flyout : Shape} {pool₀ : VarPool} (hsh : sh.Regular ∅)

include hsh

section

variable (hnames : sh.NamesApart)

include hnames

section

variable {I : List BlockId → Env → Workspace → Prop}
  (hstep : ∀ {done group env ws}, sh.Groups group → env.Serves sh.Local →
    Introduces sh sh.Local env group → ws.Sound sh flyout pool₀ → I done env ws →
      Ends (inferGroup env group) ws (fun env' ws' => env'.Serves sh.Local →
        (∀ name, (∀ f ∈ group, ¬ sh.Defines f name) → env'.lookup name = env.lookup name) →
          I (done ++ group) env' ws') fun _ => False)

include hstep

/-- What every group preserves holds of all groups that have been inferred, one after the other,
each in an environment that does not have their names yet. -/
theorem ends_inferGroups {groups : List (List BlockId)} {done : List BlockId} {env : Env}
    (hjoint : ∀ group ∈ groups, sh.Groups group) (henv : env.Serves sh.Local)
    (hgroups : Introduces sh sh.Local env groups.flatten)
    {ws : Workspace} (hws : ws.Sound sh flyout pool₀) (hI : I done env ws) :
    Ends (groups.foldlM inferGroup env) ws (fun env' ws' => ws'.Sound sh flyout pool₀ ∧
      env'.Serves sh.Local ∧ I (done ++ groups.flatten) env' ws') fun _ => False := by
  induction groups generalizing done env ws with
  | nil => exact ⟨hws, henv, by rwa [List.flatten_nil, List.append_nil]⟩
  | cons group groups ih =>
      obtain ⟨hnodup, hfresh⟩ := hgroups
      rw [List.forall_mem_cons] at hjoint
      rw [List.flatten_cons] at hnodup hfresh
      obtain ⟨hgroup, hrest, hdisjoint⟩ := List.nodup_append.1 hnodup
      have hintroduces : Introduces sh sh.Local env group :=
        ⟨hgroup, fun f hf => hfresh f (List.mem_append_left _ hf)⟩
      rw [List.foldlM_cons, ends_bind, List.flatten_cons, ← List.append_assoc]
      refine ((ends_inferGroup_checked hsh (bindersIn_local sh) henv hintroduces hws).and
        (hstep hjoint.1 henv hintroduces hws hI)).imp (fun env₁ ws₁ h₁ => ?_) fun _ => And.left
      obtain ⟨⟨hws₁, henv₁, hlookup, -⟩, hI₁⟩ := h₁
      refine ih hjoint.2 henv₁ ⟨hrest, fun f hf name hdefines => ?_⟩ hws₁ (hI₁ henv₁ hlookup)
      obtain ⟨hlocal, hprelude, hnew⟩ := hfresh f (List.mem_append_right _ hf) name hdefines
      refine ⟨hlocal, hprelude, (hlookup name fun f' hf' hdefines' => ?_).trans hnew⟩
      exact hdisjoint f' hf' f hf (hnames.unique hdefines' hdefines)

/-- All functions are inferred, each in one group. -/
theorem ends_globalEnv {ws : Workspace} (hws : ws.Sound sh flyout pool₀)
    (hI : I [] ws.declaredEnv ws) :
    Ends globalEnv ws (fun env ws' => ws'.Sound sh flyout pool₀ ∧ env.Serves sh.Local ∧
      ∃ done, (∀ f name, sh.Defines f name → f ∈ done) ∧ I done env ws') fun _ => False := by
  obtain ⟨⟨rfl, -⟩, -⟩ := id hws.1
  obtain ⟨calls, hcalls⟩ := exists_callGraph_eq hsh.toWired
  rw [globalEnv, ends_bind, ends_query, hcalls]
  dsimp only
  rw [ends_bind, ends_get]
  refine (ends_inferGroups hsh hnames hstep
    (fun group hgroup => ⟨ws, calls, rfl, hcalls, hgroup⟩) (serves_declaredEnv hnames hws.2.ground)
    ⟨calls.nodup_flatten_groups, fun f _ name hdefines => ?_⟩ hws hI).imp
    (fun env ws' h => ⟨h.1, h.2.1, _, fun f name hdefines => ?_, h.2.2⟩) fun _ => id
  · exact ⟨hnames.not_local_of_defines hdefines, hnames.lookup_of_defines hdefines,
      lookup_declaredEnv_of_defines hnames hdefines⟩
  · obtain ⟨group, hgroup, hf⟩ := CallGraph.exists_mem_groups
      (mem_functions_callGraph hcalls (mem_functionTable hnames hdefines))
    exact List.mem_flatten.2 ⟨group, hgroup, hf⟩

end

/-- The functions fit, if there is no warning. -/
theorem ends_globalEnv_checked {ws : Workspace} (hws : ws.Sound sh flyout pool₀) :
    Ends globalEnv ws (fun env ws' => ws'.Sound sh flyout pool₀ ∧ env.Serves sh.Local ∧
      ∀ b, (∃ f, (∃ name, sh.Defines f name) ∧ sh.Below b f) →
        ws'.Checked (env.Uses sh.Local) b) fun _ => False := by
  refine (ends_globalEnv hsh hnames (I := fun done env ws => ∀ f ∈ done,
    (∃ name, sh.Defines f name) → ∀ b, sh.Below b f → ws.Checked (env.Uses sh.Local) b) ?_ hws
    fun f hf => ?_).imp
    (fun env ws' h => ⟨h.1, h.2.1, ?_⟩) fun _ => id
  · intro done group env ws _ henv hgroup hws hdone
    refine (ends_inferGroup_checked hsh (bindersIn_local sh) henv hgroup hws).imp
      (fun env' ws' h henv' hlookup f hf hfun b hb => h.2.2.2 b ?_) fun _ => id
    refine (List.mem_append.1 hf).imp (fun hf => ?_) fun hf => ⟨f, hf, hfun, hb⟩
    refine (hdone f hf hfun b hb).mono fun name t huses => ?_
    refine huses.imp_left fun ⟨scheme, hscheme, hinst⟩ => ⟨scheme, ?_, hinst⟩
    refine (hlookup name fun f' hf' hdefines => ?_).trans hscheme
    rw [(hgroup.fresh f' hf' name hdefines).2.2] at hscheme
    cases hscheme
  · exact (List.not_mem_nil hf).elim
  · rintro b ⟨f, ⟨name, hdefines⟩, hb⟩
    obtain ⟨done, hall, hchecked⟩ := h.2.2
    exact hchecked f (hall f name hdefines) ⟨name, hdefines⟩ b hb

end

section

variable {bound : String → Prop} {env : Env} (hbinders : sh.BindersIn bound)
  (henv : env.Serves bound)

include hbinders henv

/-- The tree that is plugged into an input of a statement fits, if there is no warning. -/
theorem establishes_inferSlot {input : SocketId} {b : BlockId} {slot : String} {p : Ports}
    (hsite : sh.site input = some (b, .input slot)) (hp : sh.ports b = some p)
    (hout : ¬ p.kind.hasOutput) :
    Establishes (Sound sh flyout pool₀) (fun c ws => ws.Checked (env.Uses bound) c)
      {c | ∃ child, sh.guest input = some child ∧ sh.Below c child} (inferSlot env input) := by
  intro ws hws
  obtain ⟨⟨rfl, -⟩, -⟩ := id hws.1
  have hhosts : ws.main.shape.Hosts b (.socket input) := ⟨_, hsite⟩
  have hty : ws.main.socketTy input = .ok (ws.main.tyAt input) := Graph.placeTy_eq hhosts
  rw [inferSlot, ends_bind, ends_ask, Graph.pluggedBlock_eq hsh.toWired hsite]
  cases hguest : ws.main.shape.guest input with
  | none =>
      refine ⟨hws, fun c hc => hc.resolve_right ?_⟩
      rintro ⟨child, hchild, -⟩
      cases hchild
  | some child =>
      have htop : ∀ {c q}, ws.main.shape.Plugged child c → ws.main.shape.ports c = some q →
          ¬ q.kind.hasOutput := by
        intro c q hplug hq
        obtain rfl := hsh.toWired.plugged_unique hplug (hsh.plugged_of_guest hsite hguest)
        cases hp.symm.trans hq
        exact hout
      dsimp only
      rw [ends_bind, ends_ask, hty]
      dsimp only
      rw [ends_bind]
      refine (ends_inferTree_checked hsh hbinders henv hws (hsh.toWired.live_of_guest hguest) htop
        fun t ht => ⟨input, hguest, ht⟩).imp (fun _ ws' h => ⟨h.1, fun c hc => h.2 c ?_⟩)
        fun _ => id
      refine hc.imp_right ?_
      rintro ⟨_, hchild, hbelow⟩
      cases hchild
      exact hbelow

/-- The blocks below one that is plugged into nothing fit, if it is no function and there is no
warning. -/
theorem establishes_inferRoot {root : BlockId} (hroot : sh.Live root)
    (htop : ∀ c, ¬ sh.Plugged root c) :
    Establishes (Sound sh flyout pool₀) (fun c ws => ws.Checked (env.Uses bound) c)
      {c | sh.Below c root ∧ sh.Outputs c ∧ ∀ name, ¬ sh.Defines root name}
      (inferRoot env root) := by
  intro ws hws
  obtain ⟨⟨rfl, -⟩, -⟩ := id hws.1
  obtain ⟨p, hp⟩ := id hroot
  obtain ⟨block, hblock, rfl⟩ := Graph.shape_ports_eq_some.1 hp
  rw [inferRoot, ends_bind, ends_ask, Graph.block_eq_ok.2 hblock]
  dsimp only
  split
  · rename_i name params hkind
    refine ⟨hws, fun c hc => hc.resolve_right fun h => ?_⟩
    exact h.2.2 name ⟨_, params, hp, hkind⟩
  · rename_i decl hkind
    refine ⟨hws, fun c hc => hc.resolve_right fun h => ?_⟩
    have hout : ¬ block.kind.hasOutput := by
      rw [hkind]
      exact Bool.false_ne_true
    obtain ⟨input, hinput, -⟩ := hsh.exists_input_of_outputs hp hout h.1 h.2.1
    have hfits : block.inputs.map ws.main.shape.slot = block.kind.slots.map some :=
      hsh.fits hp False.elim
    rw [hkind] at hfits
    rw [List.map_eq_nil_iff.1 hfits] at hinput
    exact List.not_mem_nil hinput
  · rename_i name hkind
    have hout : ¬ block.kind.hasOutput := by
      rw [hkind]
      exact Bool.false_ne_true
    have hslots : ∀ input ∈ block.inputs, Establishes (Sound ws.main.shape flyout pool₀)
        (fun c ws => ws.Checked (env.Uses bound) c)
        {c | ∃ child, ws.main.shape.guest input = some child ∧ ws.main.shape.Below c child}
        (inferSlot env input) := by
      intro input hinput
      obtain ⟨slot, hsite⟩ := (hsh.lists hp).input hinput
      exact establishes_inferSlot hsh hbinders henv hsite hp hout
    exact (establishes_total hslots).mono
      (fun c hc => hsh.exists_input_of_outputs hp hout hc.1 hc.2.1) ws hws
  · rw [ends_bind]
    exact (ends_inferTree_checked hsh hbinders henv hws hroot
      (fun hplug _ => (htop _ hplug).elim) (by simp)).imp
      (fun _ ws' h => ⟨h.1, fun c hc => h.2 c (hc.imp_right And.left)⟩) fun _ => id

end

section

variable (hnames : sh.NamesApart)

include hnames

/-- The functions are inferred, and then the trees of blocks that are plugged into nothing. -/
theorem ends_inferRoots_checked {roots : List BlockId}
    (hroots : ∀ root ∈ roots, sh.Live root ∧ ∀ c, ¬ sh.Plugged root c) {ws : Workspace}
    (hws : ws.Sound sh flyout pool₀) :
    Ends (clearWarnings roots >>= fun _ => globalEnv) ws (fun env ws' =>
      env.Serves sh.Local ∧ Ends (total (inferRoot env) roots) ws' (fun _ ws'' =>
        ws''.Sound sh flyout pool₀ ∧ ∀ b, ((∃ f, (∃ name, sh.Defines f name) ∧ sh.Below b f) ∨
            ∃ root ∈ roots, sh.Below b root ∧ sh.Outputs b ∧ ∀ name, ¬ sh.Defines root name) →
          ws''.Checked (env.Uses sh.Local) b) fun _ => False) fun _ => False := by
  rw [ends_bind]
  refine (Steady.completes_clearWarnings (steady_sound hsh) hsh
    (fun root hroot => (hroots root hroot).1) ws hws).imp (fun _ ws₁ hws₁ => ?_) fun _ => id
  refine (ends_globalEnv_checked hsh hnames hws₁).imp (fun env ws₂ h₂ => ⟨h₂.2.1, ?_⟩) fun _ => id
  have hinferred : Ends (total (inferRoot env) roots) ws₂ (fun _ ws' =>
      ws'.Sound sh flyout pool₀ ∧ ∀ b, ws₂.Checked (env.Uses sh.Local) b ∨ _ → _) fun _ => False :=
    establishes_total (fun root hroot => establishes_inferRoot hsh (bindersIn_local sh) h₂.2.1
      (hroots root hroot).1 (hroots root hroot).2) ws₂ h₂.1
  exact hinferred.imp (fun _ ws₃ h₃ => ⟨h₃.1, fun b hb => h₃.2 b (hb.imp_left (h₂.2.2 b))⟩)
    fun _ => id

end

end WorkspaceM

namespace Graph

/-- A name is used at an instance of its scheme where the environment binds it, and elsewhere it
is one that the blocks themselves bind. -/
def Names (g : Graph) (env : Env) (name : String) (t : Ty) : Prop :=
  match env.lookup name with
  | some scheme => scheme.Instance t
  | none => g.shape.Local name

/-- Both ends of every link have the same type, and the types on each block that has an output
fit together in the way of its kind. -/
structure Consistent (g : Graph) (env : Env) : Prop where
  linked : ∀ {s d : SocketId} {socket other : Socket}, g.sockets[s]? = some socket →
    socket.peer = some d → g.sockets[d]? = some other → other.ty = socket.ty
  fits : ∀ {b : BlockId} {block : Block}, g.blocks[b]? = some block → block.kind.hasOutput →
    ∃ inputs output, g.Holds b inputs output ∧ block.kind.Fits (g.Names env) inputs output

theorem exists_top_of_live {g : Graph} (h : g.shape.Regular ∅) {b : BlockId} (hb : g.shape.Live b) :
    ∃ top ∈ g.topBlocks, g.shape.Below b top := by
  obtain ⟨p, hp⟩ := id hb
  obtain ⟨top, -, hbelow, hparent⟩ := exists_rootOf_eq h.toWired h.acyclic hp
  have htop : g.isTop top := by rw [isTop, hparent]
  obtain ⟨q, hq⟩ := live_of_isTop htop
  obtain ⟨block, hblock, -⟩ := shape_ports_eq_some.1 hq
  refine ⟨top, List.mem_filter.2 ⟨Std.ExtTreeMap.mem_keys.2 ?_, htop⟩, hbelow⟩
  exact Std.ExtTreeMap.mem_iff_isSome_getElem?.2 (by rw [hblock]; rfl)

theorem consistent_of_fitted {g : Graph} (h : g.shape.Regular ∅) {env : Env}
    (henv : env.Serves g.shape.Local)
    (hfitted : ∀ b, g.shape.Outputs b → g.Fitted (env.Uses g.shape.Local) b) :
    g.Consistent env := by
  have hends : ∀ {o i b}, g.shape.site o = some (b, .output) → g.shape.peer o = some i →
      g.tyAt i = g.tyAt o := fun {o i b} ho hpeer => by
    obtain ⟨p, hp⟩ := h.owner ho
    exact (hfitted b ⟨p, hp, h.hasOutput_of_site hp ho⟩).linked ho hpeer
  refine ⟨fun {s d socket other} hs hd hother => ?_, fun {b block} hb hout => ?_⟩
  · have hpeer : g.shape.peer s = some d := shape_peer_eq_some.2 ⟨socket, hs, hd⟩
    have hty : g.tyAt d = g.tyAt s := by
      rcases h.joins hpeer with ⟨b, _, _, hsite, -⟩ | ⟨_, c, _, -, hsite⟩
      · exact hends hsite hpeer
      · exact (hends hsite (h.symm hpeer)).symm
    simpa [tyAt, hs, hother] using hty
  · have hp := shape_ports_eq_some.2 ⟨block, hb, rfl⟩
    obtain ⟨inputs, output, hholds, hfits⟩ := (hfitted b ⟨_, hp, hout⟩).fits hp hout
    refine ⟨inputs, output, hholds, hfits.imp fun name t huses => ?_⟩
    rw [Names]
    rcases huses with ⟨scheme, hlookup, hinst⟩ | hlocal
    · rw [hlookup]
      exact hinst
    · rw [henv.apart hlocal]
      exact hlocal

end Graph

namespace Workspace

open WorkspaceM

/-- The environment in which the main canvas would be inferred now. -/
def inferenceEnv (ws : Workspace) : Except WorkspaceError Env :=
  ((do
    clearWarnings ws.main.topBlocks
    globalEnv : WorkspaceM Env).run ws).1

/-- If no warning is left when the main canvas has been inferred, then all the types on it are
consistent. -/
theorem Reachable.consistent_of_infer {ws : Workspace}
    (h : ws.Reachable fun ws command => command.AddsUnrepeated ws ∧ command.AddsGround ws)
    (hnames : ws.main.shape.NamesApart) {report : Report}
    (hreport : (ws.perform .infer).1 = .ok (.report report)) (hwarnings : report.warnings = []) :
    ∃ env, ws.inferenceEnv = .ok env ∧ (ws.after .infer).main.Consistent env := by
  have hregular : ws.main.shape.Regular ∅ := (h.mono fun _ _ => And.left).settled.1.1
  have hsound : ws.Sound ws.main.shape ws.flyout.shape ws.pool :=
    ⟨⟨⟨rfl, rfl⟩, (h.mono fun _ _ => And.left).settled.2⟩, (h.mono fun _ _ => And.right).accounted⟩
  have hroots : ∀ root ∈ ws.main.topBlocks,
      ws.main.shape.Live root ∧ ∀ c, ¬ ws.main.shape.Plugged root c := fun root hroot => by
    have htop := (List.mem_filter.1 hroot).2
    exact ⟨Graph.live_of_isTop htop, Graph.not_plugged_of_isTop hregular.toWired htop⟩
  obtain ⟨env, ws₁, hrun, henv, hends⟩ :=
    (ends_inferRoots_checked hregular hnames hroots hsound).exists_run
  refine ⟨env, congrArg Prod.fst hrun, ?_⟩
  have hfound : Ends (clearWarnings ws.main.topBlocks >>= fun _ => globalEnv) ws
      (fun env' ws' => env' = env ∧ ws' = ws₁) fun _ => False := by
    rw [Ends, hrun]
    exact ⟨rfl, rfl⟩
  have hinfer : Ends (WorkspaceM.perform .infer) ws (fun reply ws' => reply = .report report →
      ws'.main.Consistent env) fun _ => False := by
    rw [WorkspaceM.perform, ends_map, infer, ends_bind, ends_get, inferRoots]
    rw [ends_bind] at hfound ⊢
    refine hfound.imp (fun _ ws₀ h₀ => ?_) fun _ => id
    rw [ends_bind]
    refine h₀.imp (fun env' ws' h' => ?_) fun _ => id
    obtain ⟨rfl, rfl⟩ := h'
    rw [ends_bind]
    refine hends.imp (fun count ws₂ h₂ => ?_) fun _ => id
    rw [ends_bind, ends_get, ends_pure]
    intro heq
    cases heq
    obtain ⟨hsound₂, hchecked⟩ := h₂
    have hshape : ws₂.main.shape = ws.main.shape := hsound₂.1.1.1
    refine Graph.consistent_of_fitted (hshape ▸ hregular) (hshape ▸ henv) fun b hb => ?_
    rw [hshape] at hb ⊢
    refine (hchecked b ?_).resolve_left (not_warned hwarnings)
    obtain ⟨p, hp, -⟩ := id hb
    obtain ⟨top, htop, hbelow⟩ := Graph.exists_top_of_live hregular ⟨p, hp⟩
    by_cases hfun : ∃ name, ws.main.shape.Defines top name
    · exact .inl ⟨top, hfun, hbelow⟩
    · exact .inr ⟨top, htop, hbelow, hb, fun name hname => hfun ⟨name, hname⟩⟩
  rw [Workspace.after]
  rw [perform] at hreport ⊢
  unfold Ends at hinfer
  generalize (WorkspaceM.perform .infer).run ws = out at hinfer hreport ⊢
  obtain ⟨e | reply, ws'⟩ := out
  · exact hinfer.elim
  · exact hinfer (Except.ok.inj hreport)

/-- On a canvas without functions and declarations, names are apart if what the blocks bind has no
meaning of its own. -/
theorem namesApart_of_binders {sh : Shape} (hdefines : ∀ b name, ¬ sh.Defines b name)
    (hconstructs : ∀ name, ¬ sh.Constructs name)
    (hbinds : ∀ name, sh.Binds name → ¬ Reserved name) : sh.NamesApart where
  unique hb := (hdefines _ _ hb).elim
  function hb := (hdefines _ _ hb).elim
  constructor hname := (hconstructs _ hname).elim
  binder hname := ⟨hbinds _ hname, hconstructs _, fun b => hdefines b _⟩

set_option maxRecDepth 4000 in
/-- A function of the blocks' own negates its argument. -/
theorem consistent_after_infer :
    let ws := [.add .main (.lambda "x"), .add .main (.operator "negate" 1), .add .main (.variable "x"),
      .plug ⟨2⟩ ⟨1⟩ "ARG0", .plug ⟨1⟩ ⟨0⟩ "BODY"].foldl after (ofSettings default)
    ws.main.shape.NamesApart ∧ (ws.perform .infer).1 = .ok (.report ⟨1, []⟩) ∧
      ∃ env, ws.inferenceEnv = .ok env ∧ (ws.after .infer).main.Consistent env := by
  intro ws
  have hreport : (ws.perform .infer).1 = .ok (.report ⟨1, []⟩) := by
    subst ws
    cbv
  have hkinds : ws.main.blocks.values.map (·.kind) =
      [.lambda "x", .operator "negate" 1, .variable "x"] := by
    subst ws
    cbv
  have hmem : ∀ {b p}, ws.main.shape.ports b = some p →
      p.kind = .lambda "x" ∨ p.kind = .operator "negate" 1 ∨ p.kind = .variable "x" := by
    intro b p hp
    obtain ⟨block, hblock, rfl⟩ := Graph.shape_ports_eq_some.1 hp
    have hkind : block.kind ∈ ws.main.blocks.values.map (·.kind) :=
      List.mem_map_of_mem (mem_values_iff.2 ⟨b, hblock⟩)
    rw [hkinds] at hkind
    simpa using hkind
  have hnames : ws.main.shape.NamesApart := by
    refine namesApart_of_binders ?_ ?_ ?_
    · rintro b name ⟨p, params, hp, hkind⟩
      rcases hmem hp with h | h | h <;> rw [h] at hkind <;> cases hkind
    · rintro name ⟨b, p, decl, hp, hkind, -⟩
      rcases hmem hp with h | h | h <;> rw [h] at hkind <;> cases hkind
    · rintro name ⟨b, p, hp, hname⟩
      have hx : name = "x" := by
        rcases hmem hp with h | h | h <;> rw [h] at hname
        · exact List.mem_singleton.1 hname
        · exact (List.not_mem_nil hname).elim
        · exact (List.not_mem_nil hname).elim
      exact hx ▸ not_reserved (by decide) (by decide) (by decide)
  exact ⟨hnames, hreport, Reachable.consistent_of_infer ((Reachable.start default).foldl
    (by simp [Command.AddsUnrepeated, BlockKind.Unrepeated, Command.AddsGround, BlockKind.Ground]))
    hnames hreport rfl⟩

end Workspace

end Plugboard
