import Plugboard.Proofs.KeptLayouts
import Plugboard.Proofs.LiveVariables

/-!
# New blocks have principal types

A block that a command creates has the types of its layout, which are as general as those of a block
of its kind can be. An inference of the canvas finds nothing wrong with the block and leaves its
types as they are.
-/

namespace Plugboard

open Shape Workspace

theorem filterMap_values {α β γ : Type} {cmp : α → α → Ordering} [Std.TransCmp cmp]
    (t : Std.ExtTreeMap α β cmp) (f : β → Option γ) :
    t.values.filterMap f = (t.filterMap fun _ => f).values := by
  rw [values_eq_map_toList, values_eq_map_toList, Std.ExtTreeMap.toList_filterMap,
    List.filterMap_map, List.map_filterMap]
  refine List.filterMap_congr fun entry _ => ?_
  rw [Option.map_map, Function.comp_apply]
  exact Option.map_id'.symm

namespace Graph

variable {g : Graph} {b : BlockId} {s : SocketId} {socket : Socket}

theorem socket_addSocket {role : Role} {ty : Ty}
    (h : (g.addSocket b role ty).2.sockets[s]? = some socket) :
    g.sockets[s]? = some socket ∨ socket = ⟨b, role, some ty, none⟩ := by
  rw [addSocket, Std.ExtTreeMap.getElem?_insert] at h
  split at h
  · exact .inr (Option.some.inj h).symm
  · exact .inl h

theorem socket_addInputs {ins : List (String × Ty)}
    (h : (g.addInputs b ins).2.sockets[s]? = some socket) :
    g.sockets[s]? = some socket ∨
      ∃ entry ∈ ins, socket = ⟨b, .input entry.1, some entry.2, none⟩ := by
  induction ins generalizing g with
  | nil => exact .inl h
  | cons entry ins ih =>
      rcases ih h with h | ⟨entry', hentry, heq⟩
      · exact (socket_addSocket h).imp_right fun heq => ⟨entry, List.mem_cons_self, heq⟩
      · exact .inr ⟨entry', List.mem_cons_of_mem _ hentry, heq⟩

theorem blocks_addInputs (g : Graph) (b : BlockId) (ins : List (String × Ty)) :
    (g.addInputs b ins).2.blocks = g.blocks := by
  induction ins generalizing g with
  | nil => rfl
  | cons entry ins ih => exact ih _

/-- The new sockets are those of the layout, and nothing is plugged into them. -/
theorem socket_addBlock {kind : BlockKind} {layout : Layout}
    (h : (g.addBlock kind layout).2.sockets[s]? = some socket) : g.sockets[s]? = some socket ∨
      (∃ t, layout.output = some t ∧ socket = ⟨⟨g.nextBlock⟩, .output, some t, none⟩) ∨
      ∃ entry ∈ layout.inputs, socket = ⟨⟨g.nextBlock⟩, .input entry.1, some entry.2, none⟩ := by
  obtain ⟨output, ins, params⟩ := layout
  cases output with
  | none => exact (socket_addInputs h).imp_right .inr
  | some ty =>
      rcases socket_addInputs h with h | hin
      · exact (socket_addSocket h).imp_right fun heq => .inl ⟨ty, rfl, heq⟩
      · exact .inr (.inr hin)

theorem blocks_addBlock (g : Graph) (kind : BlockKind) (layout : Layout) :
    ∃ output inputs, (g.addBlock kind layout).2.blocks =
      g.blocks.insert ⟨g.nextBlock⟩ ⟨kind, output, inputs, layout.params, none⟩ := by
  obtain ⟨output, ins, params⟩ := layout
  cases output with
  | none =>
      refine ⟨none, (g.addInputs ⟨g.nextBlock⟩ ins).1, ?_⟩
      rw [← blocks_addInputs g ⟨g.nextBlock⟩ ins]
      rfl
  | some ty =>
      let g₁ := (g.addSocket ⟨g.nextBlock⟩ .output ty).2
      refine ⟨some ⟨g.nextSocket⟩, (g₁.addInputs ⟨g.nextBlock⟩ ins).1, ?_⟩
      rw [show g.blocks = g₁.blocks from rfl, ← blocks_addInputs g₁ ⟨g.nextBlock⟩ ins]
      rfl

variable {kind : BlockKind} {layout : Layout} (hsh : g.shape.Wired)

include hsh

theorem not_site_nextBlock {role : Role} : g.shape.site s ≠ some (⟨g.nextBlock⟩, role) := by
  intro hs
  obtain ⟨p, hp⟩ := hsh.owner hs
  exact Nat.lt_irrefl _ (hsh.block_lt hp)

/-- A socket on a new block is one of the layout. -/
theorem socket_of_site_addBlock {role : Role}
    (hs : (g.addBlock kind layout).2.shape.site s = some (⟨g.nextBlock⟩, role)) :
    ∃ t, (g.addBlock kind layout).2.sockets[s]? = some ⟨⟨g.nextBlock⟩, role, some t, none⟩ ∧
      ((role = .output ∧ layout.output = some t) ∨
        ∃ slot, role = .input slot ∧ (slot, t) ∈ layout.inputs) := by
  obtain ⟨socket, hsocket, heq⟩ := shape_site_eq_some.1 hs
  rcases socket_addBlock hsocket with hold | ⟨t, hout, rfl⟩ | ⟨entry, hentry, rfl⟩
  · exact (not_site_nextBlock hsh (shape_site_eq_some.2 ⟨socket, hold, heq⟩)).elim
  · cases heq
    exact ⟨t, hsocket, .inl ⟨rfl, hout⟩⟩
  · cases heq
    exact ⟨entry.2, hsocket, .inr ⟨entry.1, rfl, hentry⟩⟩

theorem alone_addBlock (kind : BlockKind) (layout : Layout) :
    (g.addBlock kind layout).2.shape.Alone ⟨g.nextBlock⟩ where
  live := by
    obtain ⟨output, inputs, hblocks⟩ := g.blocks_addBlock kind layout
    exact ⟨_, shape_ports_eq_some.2 ⟨_, by rw [hblocks, Std.ExtTreeMap.getElem?_insert_self], rfl⟩⟩
  free hs := by
    obtain ⟨t, hsocket, -⟩ := socket_of_site_addBlock hsh hs
    rw [shape]
    dsimp only
    rw [hsocket]
    rfl

/-- A new block has the types of its layout. -/
theorem laidOut_addBlock (hfits : layout.Fits kind) (hkind : kind.Unrepeated) :
    (g.addBlock kind layout).2.LaidOut ⟨g.nextBlock⟩ layout where
  input hs := by
    obtain ⟨t, hsocket, ⟨hrole, -⟩ | ⟨slot, hrole, hmem⟩⟩ := socket_of_site_addBlock hsh hs
    · cases hrole
    · cases hrole
      rw [hfits.input_eq hkind hmem, tyAt, hsocket]
      rfl
  output hs := by
    obtain ⟨t, hsocket, ⟨-, hout⟩ | ⟨slot, hrole, -⟩⟩ := socket_of_site_addBlock hsh hs
    · rw [hout, tyAt, hsocket]
      rfl
    · cases hrole
  param name := by
    obtain ⟨output, inputs, hblocks⟩ := g.blocks_addBlock kind layout
    rw [keptAt, paramAt, hblocks, Std.ExtTreeMap.getElem?_insert_self]
    rfl

end Graph

namespace Layout

variable {layout : Layout} {kind : BlockKind} {env : Env}

theorem MostGeneral.suits (h : layout.MostGeneral env.Gives kind) (hfits : layout.Fits kind)
    (hvar : ∀ name, kind ≠ .variable name) : layout.Suits env kind := by
  cases h with
  | output hout hprincipal =>
      obtain ⟨t, ht⟩ := Option.isSome_iff_exists.1 (hfits.output.trans hout)
      refine .output hout hvar ht ?_
      have hkindFits := hprincipal.fits
      rwa [ht] at hkindFits
  | function hopen =>
      obtain ⟨f, hf, -⟩ := hopen (fun _ => default) default
      refine .function (fun name => (layout.params[name]?).getD default) fun name hname => ?_
      obtain ⟨t, ht, -⟩ := Option.map_eq_some_iff.1 (hf name hname)
      rw [ht]
      rfl

end Layout

namespace Workspace

variable {ws : Workspace} {command : Command} {kind : BlockKind}

theorem Settles.ne_variable (h : ws.Settles kind) (name : String) : kind ≠ .variable name := by
  rintro rfl
  exact h

theorem Settles.declaration?_eq_none (h : ws.Settles kind) : kind.declaration? = none := by
  cases kind with
  | data => exact h.elim
  | _ => rfl

end Workspace

/-- The command puts a block of the kind on the main canvas, of which it is settled what it stands
for. -/
inductive Command.Creates (ws : Workspace) : Command → BlockKind → Prop
  | add {kind : BlockKind} (h : ws.Settles kind) : Creates ws (.add .main kind) kind
  | call {name : String} {scheme : Scheme} (h : ws.operatorScheme? name = some scheme) :
      Creates ws (.addOperator name) (.operator name scheme.body.arity)
  | «case» {typeName : String} {decl : DataDecl} (h : ws.declaration? typeName = some decl) :
      Creates ws (.addCase typeName) (.cases typeName decl.arms)

namespace Command.Creates

variable {ws : Workspace} {command : Command} {kind : BlockKind}

theorem settles (h : command.Creates ws kind) : ws.Settles kind := by
  cases h with
  | add h => exact h
  | call h => exact ⟨_, h, rfl⟩
  | «case» h => exact ⟨_, h, rfl⟩

theorem ends_perform_iff (h : command.Creates ws kind) {Q : Reply → Workspace → Prop}
    {E : Workspace → Prop} : Ends (WorkspaceM.perform command) ws Q E ↔
      Ends (WorkspaceM.addBlock .main kind) ws (fun b => Q (.block b)) E := by
  cases h with
  | add h => exact ends_map
  | call h =>
      rw [WorkspaceM.perform, ends_map, WorkspaceM.addOperator, ends_bind, ends_get, calleeArity?,
        h]
  | «case» h =>
      rw [WorkspaceM.perform, ends_map, WorkspaceM.addCase, ends_bind, ends_get, h]
      exact Iff.rfl

theorem perform_eq (h : command.Creates ws kind) {b : BlockId} {ws' : Workspace}
    (hrun : (WorkspaceM.addBlock .main kind).run ws = (.ok b, ws')) :
    ws.perform command = (.ok (.block b), ws') := by
  have hends : Ends (WorkspaceM.perform command) ws
      (fun reply ws'' => reply = .block b ∧ ws'' = ws') fun _ => False := by
    rw [h.ends_perform_iff, Ends, hrun]
    exact ⟨rfl, rfl⟩
  obtain ⟨_, _, hperform, rfl, rfl⟩ := hends.exists_run
  exact hperform

end Command.Creates

namespace WorkspaceM

variable {ws : Workspace} {kind : BlockKind}

/-- The block that is added is alone and has the types of its layout, which are as general as they
can be. -/
theorem ends_addBlock_laidOut (hsh : ws.main.shape.Wired) (hground : ws.main.Ground)
    (hpool : ws.pool.Distinct) (hproper : ∀ d ∈ ws.declarations, d.Proper)
    (hkind : kind.Unrepeated) (hsettles : ws.Settles kind) :
    Ends (addBlock .main kind) ws (fun b ws' => ∃ layout,
      ((layoutFor kind).run ws).1 = .ok layout ∧ layout.Fits kind ∧
        (∀ env : Env, ws.Knows env → layout.MostGeneral env.Gives kind) ∧
        ws'.main.LaidOut b layout ∧ ws'.main.shape.Alone b ∧
        (∃ p, ws'.main.shape.ports b = some p ∧ p.kind = kind) ∧
        ws'.declarations = ws.declarations) fun _ => False := by
  have hgeneral := ends_layoutFor_mostGeneral hground hpool hproper hkind hsettles
  obtain ⟨layout, ws₁, hrun, ⟨hfits, -, pool, rfl⟩, hgeneral⟩ :=
    (((ends_layoutFor ws kind).and hgeneral).imp (fun _ _ => id) fun _ => And.right).exists_run
  rw [addBlock, ends_bind, Ends, hrun]
  simp only [ends_bind, ends_onGraph, GraphM.ends_act, ends_requestRender, ends_pure]
  obtain ⟨output, inputs, hblocks⟩ := ws.main.blocks_addBlock kind layout
  refine ⟨layout, rfl, hfits, hgeneral, Graph.laidOut_addBlock hsh hfits hkind,
    Graph.alone_addBlock hsh kind layout, ?_, ?_⟩
  · refine ⟨_, Graph.shape_ports_eq_some.2 ⟨⟨kind, output, inputs, layout.params, none⟩, ?_, rfl⟩,
      rfl⟩
    change (ws.main.addBlock kind layout).2.blocks[_]? = _
    rw [hblocks]
    exact Std.ExtTreeMap.getElem?_insert_self
  · change (ws.main.addBlock kind layout).2.blocks.values.filterMap _ = _
    rw [hblocks, declarations, filterMap_values, filterMap_values]
    refine congrArg Std.ExtTreeMap.values (Std.ExtTreeMap.ext_getElem? fun b => ?_)
    rw [Std.ExtTreeMap.getElem?_filterMap', Std.ExtTreeMap.getElem?_filterMap',
      Std.ExtTreeMap.getElem?_insert]
    split
    · rename_i heq
      obtain rfl := Std.compare_eq_iff_eq.1 heq
      have hnone : ws.main.blocks[(⟨ws.main.nextBlock⟩ : BlockId)]? = none := by
        rw [Option.eq_none_iff_forall_ne_some]
        intro block hblock
        exact Nat.lt_irrefl _ (hsh.block_lt (Graph.shape_ports_eq_some.2 ⟨block, hblock, rfl⟩))
      rw [hnone, Option.bind_some, hsettles.declaration?_eq_none]
      rfl
    · rfl

end WorkspaceM

namespace Workspace

open WorkspaceM

/-- The command creates a block with the types of its layout, which are as general as they can be,
and an inference of the main canvas keeps them and leaves the block without a warning. -/
structure CreatesPrincipal (ws : Workspace) (command : Command) (kind : BlockKind) (b : BlockId)
    (layout : Layout) (env : Env) : Prop where
  created : (ws.perform command).1 = .ok (.block b)
  drawn : ((layoutFor kind).run ws).1 = .ok layout
  laidOut : (ws.after command).main.LaidOut b layout
  inferred : (ws.after command).inferenceEnv = .ok env
  general : layout.MostGeneral env.Gives kind
  reported : ∃ report, ((ws.after command).perform .infer).1 = .ok (.report report)
  unwarned : ((ws.after command).after .infer).warning b = none
  kept : ((ws.after command).after .infer).main.LaidOut b layout

/-- A block that is created is found to have the types that it has already. -/
theorem Reachable.createsPrincipal {ws : Workspace} {command : Command} {kind : BlockKind}
    (h : ws.Reachable fun ws command => command.AddsUnrepeated ws ∧ command.AddsGround ws)
    (hallowed : command.AddsUnrepeated ws ∧ command.AddsGround ws)
    (hcreates : command.Creates ws kind) (hdecls : ws.DeclaresApart)
    (hnames : (ws.after command).main.shape.NamesApart) :
    ∃ b layout env, ws.CreatesPrincipal command kind b layout env := by
  have hsh : ws.main.shape.Regular ∅ := (h.mono fun _ _ => And.left).settled.1.1
  have haccounted : ws.Accounted ws.pool := (h.mono fun _ _ => And.right).accounted
  have hproper : ∀ d ∈ ws.declarations, d.Proper := fun _ => hdecls.proper
  have hkind : kind.Unrepeated := by
    cases hcreates with
    | add => exact hallowed.1
    | call => trivial
    | «case» hdecl => exact (hproper _ (List.mem_of_find?_eq_some hdecl)).unrepeated_cases _
  obtain ⟨b, ws', hrun, layout, hlayout, hfits, hgeneral, hlaid, halone, ⟨p, hp, rfl⟩, hsame⟩ :=
    (ends_addBlock_laidOut hsh.toWired haccounted.ground haccounted.distinct hproper hkind
      hcreates.settles).exists_run
  have hperform := hcreates.perform_eq hrun
  obtain rfl : ws.after command = ws' := congrArg Prod.snd hperform
  have hafter := h.after hallowed
  have hsettled := (hafter.mono fun _ _ => And.left).settled
  have hws : (ws.after command).Sound (ws.after command).main.shape (ws.after command).flyout.shape
      (ws.after command).pool :=
    ⟨⟨⟨rfl, rfl⟩, hsettled.2⟩, (hafter.mono fun _ _ => And.right).accounted⟩
  obtain ⟨env, henv, hknows, hends⟩ := exists_env_of_alone hsettled.1.1 hnames halone hp hws
    (hdecls.of_declarations_eq hsame) hlaid fun env hknows =>
      (hgeneral env ((knows_iff hsame).1 hknows)).suits hfits hcreates.settles.ne_variable
  obtain ⟨report, ws'', hinfer, hkept, hwarning⟩ := hends.exists_run
  have hreply : (ws.after command).perform .infer = (.ok (.report report), ws'') := by
    rw [perform, WorkspaceM.perform, ← bind_pure_comp, run_bind hinfer]
    rfl
  obtain rfl : (ws.after command).after .infer = ws'' := congrArg Prod.snd hreply
  exact ⟨b, layout, env, congrArg Prod.fst hperform, hlayout, hlaid, henv,
    hgeneral env ((knows_iff hsame).1 hknows), ⟨report, congrArg Prod.fst hreply⟩, hwarning, hkept⟩

set_option maxRecDepth 8000 in
/-- A case of a type with two constructors is created. -/
theorem createsPrincipal_maybe :
    let maybe : DataDecl :=
      ⟨"Maybe", ["a"], [⟨"Nothing", []⟩, ⟨"Just", [("value", .var "a")]⟩]⟩
    let ws := (ofSettings default).after (.add .main (.data maybe))
    (ws.after (.addCase "Maybe")).main.shape.NamesApart ∧ ∃ b layout env,
      ws.CreatesPrincipal (.addCase "Maybe") (.cases "Maybe" maybe.arms) b layout env := by
  intro maybe ws
  have hkinds : (ws.after (.addCase "Maybe")).main.blocks.values.map (·.kind) =
      [.data maybe, .cases "Maybe" maybe.arms] := by
    subst ws
    cbv
  have hdeclarations : ws.declarations = [maybe] := by
    subst ws
    cbv
  have hmem : ∀ {b p}, (ws.after (.addCase "Maybe")).main.shape.ports b = some p →
      p.kind = .data maybe ∨ p.kind = .cases "Maybe" maybe.arms := by
    intro b p hp
    obtain ⟨block, hblock, rfl⟩ := Graph.shape_ports_eq_some.1 hp
    have hkind := List.mem_map_of_mem (f := (·.kind)) (mem_values_iff.2 ⟨b, hblock⟩)
    rw [hkinds] at hkind
    simpa using hkind
  have hconstructs : ∀ {name}, (ws.after (.addCase "Maybe")).main.shape.Constructs name →
      name = "Nothing" ∨ name = "Just" := by
    rintro name ⟨b, p, decl, hp, hkind, c, hc, rfl⟩
    rcases hmem hp with h | h <;> rw [h] at hkind <;> cases hkind
    rcases List.mem_pair.1 hc with rfl | rfl
    · exact .inl rfl
    · exact .inr rfl
  have hdefines : ∀ b name, ¬ (ws.after (.addCase "Maybe")).main.shape.Defines b name := by
    rintro b name ⟨p, params, hp, hkind⟩
    rcases hmem hp with h | h <;> rw [h] at hkind <;> cases hkind
  have hplain : ∀ name ∈ ["Nothing", "Just", "value"], ¬ Reserved name :=
    List.forall_mem_cons.2 ⟨not_reserved (by decide) (by decide) (by decide),
      List.forall_mem_cons.2 ⟨not_reserved (by decide) (by decide) (by decide),
        List.forall_mem_singleton.2 (not_reserved (by decide) (by decide) (by decide))⟩⟩
  have hnames : (ws.after (.addCase "Maybe")).main.shape.NamesApart := by
    refine ⟨fun hb => (hdefines _ _ hb).elim, fun hb => (hdefines _ _ hb).elim,
      fun hname => hplain _ ?_, fun {name} hname => ?_⟩
    · rcases hconstructs hname with rfl | rfl <;> simp
    · obtain ⟨b, p, hp, hname⟩ := hname
      have hvalue : name = "value" := by
        rcases hmem hp with h | h <;> rw [h] at hname
        · exact (List.not_mem_nil hname).elim
        · simpa [maybe, BlockKind.binders, DataDecl.arms] using hname
      subst hvalue
      refine ⟨hplain _ (by simp), fun h => ?_, fun b => hdefines b _⟩
      rcases hconstructs h with h | h <;> exact absurd h (by decide)
  have hdecls : ws.DeclaresApart := by
    constructor <;> rw [hdeclarations] <;> decide
  have hreachable : ws.Reachable fun ws command =>
      command.AddsUnrepeated ws ∧ command.AddsGround ws := by
    refine (Reachable.start default).after ⟨trivial, fun c hc t ht => ?_⟩
    rcases List.mem_pair.1 hc with rfl | rfl
    · exact (List.not_mem_nil ht).elim
    · obtain rfl := List.mem_singleton.1 ht
      exact fun v hv => List.mem_singleton.2 (Ty.mem_vars_var.1 hv)
  have hdecl : ws.declaration? "Maybe" = some maybe := by
    rw [declaration?, hdeclarations]
    rfl
  refine ⟨hnames, hreachable.createsPrincipal ⟨fun decl h => ?_, trivial⟩ (.case hdecl) hdecls
    hnames⟩
  cases hdecl.symm.trans h
  decide

end Workspace

end Plugboard
