import Mathlib
import Plugboard.Proofs.ArgumentRemoval

/-!
# Coherence of reachable workspaces

Whatever commands have been performed, on both canvases links are mutual, blocks and sockets
agree on who owns whom, there are no cycles, and every block has the inputs that its kind asks
for, provided that no block was created that repeats a name in its slots. A command that is
refused has changed nothing of this.
-/

namespace Plugboard

open Shape Workspace

namespace BlockKind

theorem admits_of_editComprehension {f : List String → Nat → Except String (List String × Nat)}
    (hf : ∀ {vars guards vars' guards'}, f vars guards = .ok (vars', guards') → vars.Nodup →
      vars'.Nodup) {kind kind' : BlockKind} (h : editComprehension f kind = .ok kind') :
    WorkspaceM.Admits kind kind' := by
  cases kind with
  | comprehension vars guards =>
      obtain ⟨⟨vars', guards'⟩, hparts, h⟩ := bind_eq_ok.1 h
      cases h
      exact ⟨hf hparts, trivial, rfl, rfl⟩
  | _ => cases h

theorem admits_of_addGenerator {name : String} {kind kind' : BlockKind}
    (h : addGenerator name kind = .ok kind') : WorkspaceM.Admits kind kind' := by
  refine admits_of_editComprehension (fun {vars guards vars' guards'} hf hnodup => ?_) h
  split at hf
  · cases hf
  · rename_i hnew
    cases hf
    rw [← List.concat_eq_append]
    exact hnodup.concat (by simpa using hnew)

theorem admits_of_removeGenerator {name : String} {kind kind' : BlockKind}
    (h : removeGenerator name kind = .ok kind') : WorkspaceM.Admits kind kind' := by
  refine admits_of_editComprehension (fun {vars guards vars' guards'} hf hnodup => ?_) h
  split at hf
  · cases hf
    exact hnodup.erase name
  · cases hf

theorem admits_of_addGuard {kind kind' : BlockKind} (h : addGuard kind = .ok kind') :
    WorkspaceM.Admits kind kind' := by
  refine admits_of_editComprehension (fun {vars guards vars' guards'} hf hnodup => ?_) h
  cases hf
  exact hnodup

theorem admits_of_removeGuard {kind kind' : BlockKind} (h : removeGuard kind = .ok kind') :
    WorkspaceM.Admits kind kind' := by
  refine admits_of_editComprehension (fun {vars guards vars' guards'} hf hnodup => ?_) h
  cases guards with
  | zero => cases hf
  | succ guards =>
      cases hf
      exact hnodup

theorem admits_of_setItems {items : Nat} {kind kind' : BlockKind}
    (h : setItems items kind = .ok kind') : WorkspaceM.Admits kind kind' := by
  cases kind <;> cases h
  exact ⟨fun _ => trivial, trivial, rfl, rfl⟩

end BlockKind

/-- A block that the command adds repeats no variable and no constructor. -/
def Command.AddsUnrepeated (ws : Workspace) : Command → Prop
  | .add _ kind => kind.Unrepeated
  | .addCase typeName => ∀ decl, ws.declaration? typeName = some decl →
      (decl.constructors.map (·.name)).Nodup
  | _ => True

namespace WorkspaceM

theorem ends_addCase {ws : Workspace} (h : ws.Settled ∅) (typeName : String) :
    Ends (addCase typeName) ws (fun _ ws' => Command.AddsUnrepeated ws (.addCase typeName) →
      ws'.Settled ∅) (· = ws) := by
  rw [addCase, ends_bind, ends_get]
  cases hfound : ws.declaration? typeName with
  | none => rfl
  | some decl =>
      refine (ends_addBlock h .main _).imp (fun _ ws' hws' hdecl => hws' ?_) fun _ => id
      rw [BlockKind.Unrepeated, List.map_map]
      exact hdecl decl hfound

/-- A command that fails has changed nothing. -/
theorem ends_perform {ws : Workspace} (h : ws.Settled ∅) (command : Command) :
    Ends (perform command) ws (fun _ ws' => command.AddsUnrepeated ws → ws'.Settled ∅)
      (· = ws) := by
  have hmap : ∀ {α : Type} {x : WorkspaceM α} {f : α → Reply},
      Ends x ws (fun _ => Settled ∅) (· = ws) →
      Ends (f <$> x) ws (fun _ ws' => command.AddsUnrepeated ws → ws'.Settled ∅) (· = ws) :=
    fun hx => ends_map.2 (hx.imp (fun _ _ hws' _ => hws') fun _ => id)
  have hedit : ∀ {x : WorkspaceM Report} {R : Workspace → Prop},
      Ends x ws (fun _ ws' => ws'.Settled ∅ ∧ R ws') (· = ws) →
      Ends (Reply.report <$> x) ws
        (fun _ ws' => command.AddsUnrepeated ws → ws'.Settled ∅) (· = ws) :=
    fun hx => hmap (hx.imp (fun _ _ => And.left) fun _ => id)
  cases command with
  | add canvas kind => exact ends_map.2 (ends_addBlock h canvas kind)
  | addOperator name => exact hmap (ends_addOperator h name)
  | addCase typeName => exact ends_map.2 (ends_addCase h typeName)
  | remove b => exact hmap (ends_removeBlock h b)
  | connect a b => exact hmap (ends_connect_settled h a b)
  | plug child parent slot => exact hmap (ends_plug h child parent slot)
  | unplug parent child => exact hmap (ends_unplug h parent child)
  | infer => exact hmap ((settled_infer ws h).imp (fun _ _ => id) fun _ => False.elim)
  | renameParameter b old new => exact hedit (ends_renameParameter h b old new)
  | addParameter b name => exact hedit (ends_addParameter h b name)
  | removeParameter b name => exact hmap (ends_removeParameter h b name)
  | addGenerator b name => exact hedit (ends_edit h b BlockKind.admits_of_addGenerator)
  | removeGenerator b name => exact hedit (ends_edit h b BlockKind.admits_of_removeGenerator)
  | addGuard b => exact hedit (ends_edit h b BlockKind.admits_of_addGuard)
  | removeGuard b => exact hedit (ends_edit h b BlockKind.admits_of_removeGuard)
  | setItems b items => exact hedit (ends_edit h b BlockKind.admits_of_setItems)
  | allocate => exact fun _ => h
  | collect => exact fun _ => h
  | requestSweep => exact fun _ => h
  | poll now =>
      simp only [perform, poll, ends_map, ends_modifyGet, pollSweep]
      split
      · exact fun _ => h
      · exact fun _ => h
  | wait millis => exact fun _ => h
  | takeRenders => exact fun _ => h

end WorkspaceM

namespace Workspace

theorem Reachable.mono {allowed allowed' : Workspace → Command → Prop} {ws : Workspace}
    (h : ws.Reachable allowed) (hsub : ∀ ws command, allowed ws command → allowed' ws command) :
    ws.Reachable allowed' := by
  induction h with
  | start settings => exact .start settings
  | after _ hallowed ih => exact ih.after (hsub _ _ hallowed)

/-- Commands that are allowed wherever they are performed. -/
theorem Reachable.foldl {allowed : Workspace → Command → Prop} {ws : Workspace}
    (h : ws.Reachable allowed) {commands : List Command}
    (hallowed : ∀ command ∈ commands, ∀ ws, allowed ws command) :
    (commands.foldl Workspace.after ws).Reachable allowed := by
  induction commands generalizing ws with
  | nil => exact h
  | cons command commands ih =>
      rw [List.forall_mem_cons] at hallowed
      exact ih (h.after (hallowed.1 ws)) hallowed.2

theorem Reachable.settled {ws : Workspace} (h : ws.Reachable Command.AddsUnrepeated) :
    ws.Settled ∅ := by
  induction h with
  | start settings =>
      exact ⟨⟨regular_empty, regular_empty⟩, .empty _ _, .empty _ _⟩
  | @after ws command _ hallowed ih =>
      exact ((WorkspaceM.ends_perform ih command).imp (fun _ _ hws' => hws' hallowed)
        fun _ hws' => hws' ▸ ih).state

end Workspace

/-- Blocks and sockets of a canvas of `ws` agree, and each block is as its kind asks. -/
structure Graph.Coherent (ws : Workspace) (g : Graph) : Prop where
  /-- Links are mutual and join an output and an input. -/
  linked : ∀ {s d : SocketId} {socket : Socket}, g.sockets[s]? = some socket →
    socket.peer = some d → ∃ other, g.sockets[d]? = some other ∧ other.peer = some s ∧
      other.isOutput = ! socket.isOutput
  /-- A socket is listed by its block once, as what it is, and by no other block. -/
  listed : ∀ {s : SocketId} {socket : Socket}, g.sockets[s]? = some socket →
    (∃ block, g.blocks[socket.block]? = some block ∧
      (block.output = some s ↔ socket.isOutput = true)) ∧
    ∀ {b : BlockId} {block : Block}, g.blocks[b]? = some block →
      (block.output.toList ++ block.inputs).count s = if b = socket.block then 1 else 0
  /-- What is listed is there. -/
  live : ∀ {b : BlockId} {block : Block}, g.blocks[b]? = some block →
    ∀ s ∈ block.output.toList ++ block.inputs, ∃ socket, g.sockets[s]? = some socket
  /-- Parents lead to a block that is plugged into nothing. -/
  rooted : ∀ {b : BlockId}, g.contains b → ∃ top, g.rootOf b = .ok top ∧ g.isTop top
  /-- No block is below one of its children. -/
  unnested : ∀ {b : BlockId}, g.contains b → ∃ children, g.children b = .ok children ∧
    ∀ c ∈ children, ∃ below, g.descendants c = .ok below ∧ b ∉ below
  /-- The inputs go by the slots of the layout that the kind gets. -/
  slots : ∀ {b : BlockId} {block : Block}, g.blocks[b]? = some block →
    ∃ layout ws', (WorkspaceM.layoutFor block.kind).run ws = (.ok layout, ws') ∧
      block.inputs.map (fun s => g.sockets[s]?.bind Socket.slot?) =
        layout.inputs.map fun input => some input.1

namespace Workspace

variable {ws : Workspace}

theorem linked_of_wired {g : Graph} (h : g.shape.Wired) {s d : SocketId} {socket : Socket}
    (hs : g.sockets[s]? = some socket) (hd : socket.peer = some d) :
    ∃ other, g.sockets[d]? = some other ∧ other.peer = some s ∧
      other.isOutput = ! socket.isOutput := by
  have hpeer : g.shape.peer s = some d := Graph.shape_peer_eq_some.2 ⟨socket, hs, hd⟩
  obtain ⟨other, hother, hback⟩ := Graph.shape_peer_eq_some.1 (h.symm hpeer)
  refine ⟨other, hother, hback, ?_⟩
  rcases h.joins hpeer with ⟨b, c, slot, hsite, hsite'⟩ | ⟨b, c, slot, hsite, hsite'⟩ <;>
  · obtain ⟨socket', hs', hsocket⟩ := Graph.shape_site_eq_some.1 hsite
    obtain ⟨other', hd', hother'⟩ := Graph.shape_site_eq_some.1 hsite'
    cases hs.symm.trans hs'
    cases hother.symm.trans hd'
    simp [Socket.isOutput, (Prod.mk.inj hsocket).2, (Prod.mk.inj hother').2]

theorem listed_of_wired {g : Graph} (h : g.shape.Wired) {s : SocketId} {socket : Socket}
    (hs : g.sockets[s]? = some socket) :
    (∃ block, g.blocks[socket.block]? = some block ∧
      (block.output = some s ↔ socket.isOutput = true)) ∧
    ∀ {b : BlockId} {block : Block}, g.blocks[b]? = some block →
      (block.output.toList ++ block.inputs).count s = if b = socket.block then 1 else 0 := by
  have hsite : g.shape.site s = some (socket.block, socket.role) :=
    Graph.shape_site_eq_some.2 ⟨socket, hs, rfl⟩
  refine ⟨?_, fun {b block} hb => ?_⟩
  · obtain ⟨p, hp⟩ := h.owner hsite
    obtain ⟨block, hblock, rfl⟩ := Graph.shape_ports_eq_some.1 hp
    refine ⟨block, hblock, ((h.lists hp).output_eq_some).trans ?_⟩
    rw [hsite]
    simp [Socket.isOutput]
  · have hlists := h.lists (Graph.shape_ports_eq_some.2 ⟨block, hb, rfl⟩)
    have hmem := hlists.mem_iff s
    refine hlists.nodup.count.trans (if_congr (hmem.trans ?_) rfl rfl)
    rw [hsite]
    simp [eq_comm]

theorem rooted_of_wired {g : Graph} (h : g.shape.Wired) (hacyclic : g.shape.Acyclic)
    {b : BlockId} (hb : g.contains b) : ∃ top, g.rootOf b = .ok top ∧ g.isTop top := by
  obtain ⟨p, hp⟩ := Graph.contains_iff.1 hb
  obtain ⟨top, htop, -, hparent⟩ := Graph.exists_rootOf_eq h hacyclic hp
  exact ⟨top, htop, by rw [Graph.isTop, hparent]⟩

theorem unnested_of_wired {g : Graph} (h : g.shape.Wired) (hacyclic : g.shape.Acyclic)
    {b : BlockId} (hb : g.contains b) : ∃ children, g.children b = .ok children ∧
      ∀ c ∈ children, ∃ below, g.descendants c = .ok below ∧ b ∉ below := by
  obtain ⟨p, hp⟩ := Graph.contains_iff.1 hb
  obtain ⟨children, hchildren, hmem⟩ := Graph.exists_children_eq h hp
  refine ⟨children, hchildren, fun c hc => ?_⟩
  have hplug := (hmem c).1 hc
  obtain ⟨q, hq⟩ := (h.ports_of_plugged hplug).1
  obtain ⟨below, hbelow, hbelow_mem⟩ := Graph.exists_descendants_eq h hq
  exact ⟨below, hbelow, fun hb => hacyclic b (.tail' ((hbelow_mem b).1 hb) hplug)⟩

theorem coherent_of_settled (h : ws.Settled ∅) {g : Graph} (hg : g.shape.Regular ∅) :
    g.Coherent ws where
  linked := linked_of_wired hg.toWired
  listed := listed_of_wired hg.toWired
  live {b block} hb s hs := by
    have hlists := hg.lists (Graph.shape_ports_eq_some.2 ⟨block, hb, rfl⟩)
    obtain ⟨role, hsite⟩ := (hlists.mem_iff s).1 hs
    obtain ⟨socket, hsocket, -⟩ := Graph.shape_site_eq_some.1 hsite
    exact ⟨socket, hsocket⟩
  rooted := rooted_of_wired hg.toWired hg.acyclic
  unnested := unnested_of_wired hg.toWired hg.acyclic
  slots {b block} hb := by
    have hp := Graph.shape_ports_eq_some.2 ⟨block, hb, rfl⟩
    have hfits := hg.fits hp False.elim
    have hlayout := WorkspaceM.ends_layoutFor ws block.kind
    have hread := Workspace.exists_functionScheme?_eq h.1.1
    obtain ⟨layout, ws', hrun, hslots, -⟩ := (hlayout.imp (fun _ _ => id) fun ws' ⟨_, hfail⟩ =>
      hfail ⟨(hg.sound hp).known, hread⟩).exists_run
    refine ⟨layout, ws', hrun, ?_⟩
    calc block.inputs.map (fun s => g.sockets[s]?.bind Socket.slot?)
        = block.inputs.map g.shape.slot := List.map_congr_left fun s _ => (g.shape_slot s).symm
      _ = block.kind.slots.map some := hfits
      _ = layout.inputs.map fun input => some input.1 := by
          rw [← hslots.slots, List.map_map]
          rfl

/-- On both canvases of a workspace that commands lead to, blocks and sockets agree, there is no
cycle, and every block has the slots of its kind. -/
theorem Reachable.coherent (h : ws.Reachable Command.AddsUnrepeated) (canvas : Canvas) :
    (ws.graph canvas).Coherent ws := by
  have hsettled := h.settled
  cases canvas with
  | main => exact coherent_of_settled hsettled hsettled.1.1
  | flyout => exact coherent_of_settled hsettled hsettled.1.2

/-- A generator whose list is plugged in is removed. -/
theorem coherent_after_removeGenerator :
    let ws := [.add .main (.comprehension ["x", "y"] 1), .add .main (.list 2),
      .plug ⟨1⟩ ⟨0⟩ "VAR_x", .removeGenerator ⟨0⟩ "x"].foldl after (ofSettings default)
    (ws.graph .main).Coherent ws :=
  Reachable.coherent ((Reachable.start default).foldl
    (by simp [Command.AddsUnrepeated, BlockKind.Unrepeated])) .main

/-- A command that is refused leaves everything as it was: the canvases with their types and
warnings, the pool, and what is planned and requested. -/
theorem Reachable.after_eq_of_refused (h : ws.Reachable Command.AddsUnrepeated)
    {command : Command} (hrefused : (ws.perform command).1.isOk = false) :
    ws.after command = ws := by
  have hends := WorkspaceM.ends_perform h.settled command
  rw [Workspace.after]
  rw [perform] at hrefused ⊢
  unfold Ends at hends
  generalize (WorkspaceM.perform command).run ws = out at hends hrefused ⊢
  obtain ⟨e | reply, ws'⟩ := out
  · exact hends
  · cases hrefused

set_option maxRecDepth 4000 in
/-- A call that was added before the function has no argument that could be taken away. -/
theorem after_removeParameter_eq :
    let ws := [.add .main (.operator "f" 0), .add .main (.function "f" ["x"])].foldl after
      (ofSettings default)
    (ws.perform (.removeParameter ⟨1⟩ "x")).1.isOk = false ∧
      ws.after (.removeParameter ⟨1⟩ "x") = ws :=
  ⟨by cbv, Reachable.after_eq_of_refused ((Reachable.start default).foldl
    (by simp [Command.AddsUnrepeated, BlockKind.Unrepeated])) (by cbv)⟩

end Workspace

end Plugboard
