import Plugboard.Proofs.Rebuilding
import Plugboard.Proofs.Regularity

/-!
# What is lost when the sockets of a block are rebuilt

A block may be given any layout, with repeated slots, and with or without an output. Of its inputs
in one slot only the last is matched with the layout: it is kept if the layout has the slot, and is
unplugged and removed if it does not, and then what was plugged in is reported. So nothing goes
unreported on a block whose inputs are in different slots, and such a block lists all that is on it
afterwards.
-/

namespace Plugboard

namespace Graph

variable {g g' : Graph} {b : BlockId}

/-- The graphs that come about when blocks of any layout are added, unplugged outputs are linked to
unplugged inputs, and blocks are given any other layouts. -/
inductive Built : Graph → Prop
  | empty : Built .empty
  | addBlock {g : Graph} (h : Built g) (kind : BlockKind) (layout : Layout) :
      Built (g.addBlock kind layout).2
  | link {g : Graph} {o i : SocketId} {output input : Socket} (h : Built g)
      (ho : g.sockets[o]? = some output) (hi : g.sockets[i]? = some input)
      (hout : output.isOutput = true) (hin : input.isOutput = false)
      (hfreeO : output.peer = none) (hfreeI : input.peer = none) :
      Built ((GraphM.link o i).run g).2
  | replaceSockets {g : Graph} (h : Built g) (b : BlockId) (layout : Layout) :
      Built ((GraphM.replaceSockets b layout).run g).2

theorem anchored_link {o i : SocketId} {output input : Socket} (h : g.shape.Anchored)
    (ho : g.sockets[o]? = some output) (hi : g.sockets[i]? = some input)
    (hout : output.isOutput = true) (hin : input.isOutput = false) (hfreeO : output.peer = none)
    (hfreeI : input.peer = none) : ((GraphM.link o i).run g).2.shape.Anchored := by
  have hsite : ∀ {s socket}, g.sockets[s]? = some socket →
      g.shape.site s = some (socket.block, socket.role) ∧ g.shape.peer s = socket.peer :=
    fun hs => ⟨shape_site_eq_some.2 ⟨_, hs, rfl⟩, by simp [shape, hs]⟩
  have houtRole : output.role = .output := by simpa [Socket.isOutput] using hout
  obtain ⟨slot, hinRole⟩ : ∃ slot, input.role = .input slot := by
    cases hrole : input.role with
    | output => simp [Socket.isOutput, hrole] at hin
    | input slot => exact ⟨slot, rfl⟩
  have ho' := houtRole ▸ (hsite ho).1
  have hi' := hinRole ▸ (hsite hi).1
  have hjoin := h.toLinked.join ho' hi' ((hsite ho).2.trans hfreeO) ((hsite hi).2.trans hfreeI)
  exact ((GraphM.ends_link ho' hi').imp (fun _ g' hg' => hg' ▸ h.of_linked hjoin rfl rfl rfl rfl)
    fun _ => False.elim).state

theorem anchored_replaceSockets (h : g.shape.Anchored) (b : BlockId) (layout : Layout) :
    ((GraphM.replaceSockets b layout).run g).2.shape.Anchored := by
  have hends : Ends (GraphM.replaceSockets b layout) g (fun _ => (·.shape.Anchored))
      (·.shape.Anchored) := by
    cases hblock : g.blocks[b]? with
    | none =>
        rw [GraphM.replaceSockets, ends_bind, GraphM.ends_ask, Graph.block, hblock]
        exact h
    | some block =>
        have hp := shape_ports_eq_some.2 ⟨block, hblock, rfl⟩
        refine (GraphM.ends_rebuild h hp layout).imp (fun _ g' hended => ?_) fun _ => False.elim
        obtain ⟨p', news, gone, hrebuilds⟩ := hended
        exact hrebuilds.rebuilt.anchored h hp
  exact hends.state

theorem Built.anchored (h : g.Built) : g.shape.Anchored := by
  induction h with
  | empty => exact Shape.regular_empty.toWired.anchored
  | addBlock h kind layout ih =>
      obtain ⟨p, -, -, hadded⟩ := added_addBlock ih.bounded kind layout
      exact hadded.anchored ih
  | link h ho hi hout hin hfreeO hfreeI ih => exact anchored_link ih ho hi hout hin hfreeO hfreeI
  | replaceSockets h b layout ih => exact anchored_replaceSockets ih b layout

theorem isTop_of_unplugged (h : g.shape.Anchored) {c : BlockId} (hc : ∃ q, g.shape.ports c = some q)
    (hfree : ∀ o, g.shape.site o = some (c, .output) → g.shape.peer o = none) : g.isTop c := by
  obtain ⟨q, hq⟩ := hc
  obtain ⟨block, hblock, rfl⟩ := shape_ports_eq_some.1 hq
  rw [isTop, parent, Graph.block_eq_ok.2 hblock]
  cases ho : block.output with
  | none => simp [bind, Except.bind, ho, pure, Except.pure]
  | some o =>
      have hsite := (h.output hq).1 ho
      simp [bind, Except.bind, ho, pluggedBlock_eq_of_linked h.toLinked hsite, Shape.guest,
        hfree o hsite]

theorem exists_children_of_anchored (h : g.shape.Anchored) {block : Block}
    (hblock : g.blocks[b]? = some block) : ∃ cs, g.children b = .ok cs := by
  obtain ⟨plugged, hplugged⟩ : ∃ plugged, block.inputs.mapM g.pluggedBlock = .ok plugged := by
    refine exists_mapM_eq fun s hs => ?_
    obtain ⟨slot, hsite⟩ := h.input (shape_ports_eq_some.2 ⟨block, hblock, rfl⟩) hs
    exact ⟨_, pluggedBlock_eq_of_linked h.toLinked hsite⟩
  refine ⟨plugged.filterMap id, ?_⟩
  rw [children, block_eq_ok.2 hblock]
  simp [bind, Except.bind, hplugged, pure, Except.pure]

end Graph

namespace GraphM.Rebuilds

open Plugboard.Graph

variable {g g' : Graph} {b : BlockId} {p p' : Ports} {layout : Layout} {detached : List BlockId}
  {news gone : List SocketId} (h : Rebuilds b p p' layout detached g.shape g'.shape news gone)
  (hg : g.shape.Anchored) (hp : g.shape.ports b = some p)

include h hg hp

/-- A block is at the top afterwards if either end of its link is gone. -/
theorem isTop {c : BlockId} {s o : SocketId} (ho : g.shape.site o = some (c, .output))
    (hs : g.shape.peer o = some s) (hgone : o ∈ gone ∨ s ∈ gone) : g'.isTop c := by
  have hg' := h.rebuilt.anchored hg hp
  obtain ⟨q, hq⟩ := hg.owner ho
  refine isTop_of_unplugged hg' ?_ fun x hx => ?_
  · rw [h.rebuilt.turned.ports]
    exact Shape.exists_ports_setPorts p' ⟨q, hq⟩
  · cases hy : g'.shape.peer x with
    | none => rfl
    | some y =>
        obtain ⟨hold, hxgone, hygone⟩ := h.rebuilt.turned.peer.1 hy
        -- the output is the one that was there before, so the link is the one that is gone
        obtain ⟨r, hr⟩ := hg.site_of_peer (hg.symm hold)
        cases (h.rebuilt.turned.kept hr hxgone).symm.trans hx
        cases ((hg.output hq).2 ho).symm.trans ((hg.output hq).2 hr)
        cases hs.symm.trans hold
        exact (hgone.elim hxgone hygone).elim

/-- What was plugged into the last input of a slot is still, or it is at the top and reported. -/
theorem child_or_detached {s : SocketId} {slot : String} {c : BlockId}
    (hlast : g.shape.lastIn p.inputs slot = some s)
    (hplugged : g.pluggedBlock s = .ok (some c)) :
    (∃ cs, g'.children b = .ok cs ∧ c ∈ cs) ∨ c ∈ detached ∧ g'.isTop c := by
  have hg' := h.rebuilt.anchored hg hp
  have hs := hg.site_of_lastIn hp hlast
  rw [pluggedBlock_eq_of_linked hg.toLinked hs, Except.ok.injEq] at hplugged
  obtain ⟨o, role, hpeer, ho⟩ := Shape.guest_eq_some.1 hplugged
  obtain rfl : role = .output := by
    rcases hg.joins hpeer with ⟨_, _, _, hs', -⟩ | ⟨_, _, _, -, ho'⟩
    · cases hs.symm.trans hs'
    · cases ho.symm.trans ho'
      rfl
  by_cases hsgone : s ∈ gone
  · exact .inr ⟨h.guests s hsgone slot o c _ hs hpeer ho,
      h.isTop hg hp ho (hg.symm hpeer) (.inr hsgone)⟩
  by_cases hogone : o ∈ gone
  · obtain ⟨role', hob⟩ := h.rebuilt.turned.went o hogone
    cases ho.symm.trans hob
    exact .inr ⟨h.self o hogone s ho (hg.symm hpeer),
      h.isTop hg hp ho (hg.symm hpeer) (.inl hogone)⟩
  left
  have hslots : slot ∈ layout.inputs.map (·.1) := by
    by_contra hslot
    exact hsgone ((h.mem_gone s).2 (.inl ⟨slot, hslot, hlast⟩))
  have hp' : g'.shape.ports b = some p' := by
    rw [h.rebuilt.turned.ports]
    exact if_pos rfl
  obtain ⟨block', hblock', rfl⟩ := shape_ports_eq_some.1 hp'
  obtain ⟨cs, hcs⟩ := exists_children_of_anchored hg' hblock'
  refine ⟨cs, hcs, mem_children_of_input hcs (block_eq_ok.2 hblock')
    (h.reused slot hslots s hlast) ?_⟩
  have hs' := h.rebuilt.turned.kept hs hsgone
  rw [pluggedBlock_eq_of_linked hg'.toLinked hs', Except.ok.injEq, Shape.guest_eq_some]
  exact ⟨o, _, h.rebuilt.turned.peer.2 ⟨hpeer, hsgone, hogone⟩, h.rebuilt.turned.kept ho hogone⟩

end GraphM.Rebuilds

namespace Graph

variable {g : Graph} {b : BlockId}

/-- What is reported of a block that has been given a layout, and what it lists. -/
structure Reports (b : BlockId) (layout : Layout) (detached : List BlockId) (g g' : Graph) :
    Prop where
  /-- What was plugged into the last input of a slot is still, or it is at the top and reported. -/
  child : ∀ {block : Block} {before after : List SocketId} {s : SocketId} {c : BlockId},
    g.blocks[b]? = some block → block.inputs = before ++ s :: after →
    (∀ x ∈ after, g.sockets[x]?.bind Socket.slot? ≠ g.sockets[s]?.bind Socket.slot?) →
    g.pluggedBlock s = .ok (some c) →
    (∃ cs, g'.children b = .ok cs ∧ c ∈ cs) ∨ c ∈ detached ∧ g'.isTop c
  /-- A block that was plugged in and has no output any more is reported. -/
  self : ∀ {block : Block} {o : SocketId} {c : BlockId}, g.blocks[b]? = some block →
    block.output = some o → layout.output = none → g.pluggedBlock o = .ok (some c) → b ∈ detached
  /-- A block that lists all that is on it, in different slots, does so afterwards. -/
  listed : ∀ {block block' : Block}, g.blocks[b]? = some block → g'.blocks[b]? = some block' →
    (block.inputs.map fun s => g.sockets[s]?.bind Socket.slot?).Nodup →
    (∀ s socket, g.sockets[s]? = some socket → socket.block = b →
      s ∈ block.output.toList ++ block.inputs) →
    ∀ s socket, g'.sockets[s]? = some socket → socket.block = b →
      s ∈ block'.output.toList ++ block'.inputs

/-- Whatever layout a block is given, nothing is lost track of but what is plugged into an input
whose slot a later one repeats. -/
theorem Built.replaceSockets_reports (h : g.Built) (hb : g.contains b) (layout : Layout) :
    ∃ detached g', (GraphM.replaceSockets b layout).run g = (.ok detached, g') ∧
      Reports b layout detached g g' := by
  have hg := h.anchored
  obtain ⟨p, hp⟩ := contains_iff.1 hb
  obtain ⟨block, hblock, rfl⟩ := shape_ports_eq_some.1 hp
  obtain ⟨detached, g', hrun, p', news, gone, hrebuilds⟩ :=
    (GraphM.ends_rebuild hg hp layout).exists_run
  refine ⟨detached, g', hrun, ?_⟩
  constructor
  case child =>
    intro block' before after s c hblock' hinputs hlast hplugged
    cases hblock.symm.trans hblock'
    have hmem : s ∈ block.inputs := hinputs ▸ List.mem_append_right _ List.mem_cons_self
    obtain ⟨slot, hs⟩ := hg.input hp hmem
    have hslot : g.shape.slot s = some slot := by
      rw [Shape.slot, hs]
      rfl
    have hnone : ∀ x ∈ after.reverse, ¬ (g.shape.slot x == some slot) = true := by
      intro x hx
      rw [beq_iff_eq, ← hslot, shape_slot, shape_slot]
      exact hlast x (List.mem_reverse.1 hx)
    have hfound : g.shape.lastIn block.inputs slot = some s := by
      rw [Shape.lastIn, hinputs, List.reverse_append, List.reverse_cons, List.find?_append,
        List.find?_append, List.find?_eq_none.2 hnone]
      simp [hslot]
    exact hrebuilds.child_or_detached hg hp hfound hplugged
  case self =>
    intro block' o c hblock' ho hlayout hplugged
    cases hblock.symm.trans hblock'
    have hsite := (hg.output hp).1 ho
    rw [pluggedBlock_eq_of_linked hg.toLinked hsite, Except.ok.injEq] at hplugged
    obtain ⟨d, -, hd, -⟩ := Shape.guest_eq_some.1 hplugged
    exact hrebuilds.self o ((hrebuilds.mem_gone o).2 (.inr ⟨hlayout, ho⟩)) d hsite hd
  case listed =>
    intro block₁ block' hblock₁ hblock' hdistinct hlisted s socket hsocket hsb
    cases hblock.symm.trans hblock₁
    have hp' : g'.shape.ports b = some p' := by
      rw [hrebuilds.rebuilt.turned.ports]
      exact if_pos rfl
    cases (shape_ports_eq_some.2 ⟨block', hblock', rfl⟩).symm.trans hp'
    simp only [← shape_slot] at hdistinct
    refine hrebuilds.mem_sockets hdistinct (fun {s slot} hs => ?_)
      (shape_site_eq_some.2 ⟨socket, hsocket, Prod.ext hsb rfl⟩)
    obtain ⟨socket, hsocket, hrole⟩ := shape_site_eq_some.1 hs
    rcases List.mem_append.1 (hlisted s socket hsocket (Prod.mk.inj hrole).1) with hout | hin
    · cases ((hg.output hp).1 (Option.mem_toList.1 hout)).symm.trans hs
    · exact hin

set_option maxRecDepth 4000 in
/-- What is plugged into the first of two inputs in one slot is lost track of. -/
example :
    let g := (Graph.empty.addBlock (.variable "x") ⟨some (.var "A"), [], ∅⟩).2
    let g := (g.addBlock .apply ⟨none, [("a", .var "B"), ("a", .var "C")], ∅⟩).2
    let g := ((GraphM.link ⟨0⟩ ⟨1⟩).run g).2
    let r := (GraphM.replaceSockets ⟨1⟩ ⟨none, [], ∅⟩).run g
    r.1 = .ok [] ∧ r.2.children ⟨1⟩ = .ok [] ∧ r.2.parent ⟨0⟩ = .ok (some ⟨1⟩) := by
  cbv

end Graph

end Plugboard
