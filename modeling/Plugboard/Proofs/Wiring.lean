import Plugboard.Graph.Annotate
import Plugboard.Proofs.Exploration

/-!
# How a graph is wired

The shape of a graph is what is left of it without types and warnings: which block has which
sockets, and which sockets are plugged together. In a wired shape the blocks and the sockets
agree on who owns whom, and every link goes both ways, between an output and an input. Walks
read nothing but the shape, and in a wired shape they follow one relation, `Plugged`.
-/

namespace Plugboard

open Relation

section

variable {α β : Type} {cmp : α → α → Ordering} [Std.TransCmp cmp]

theorem values_eq_map_toList (t : Std.ExtTreeMap α β cmp) : t.values = t.toList.map Prod.snd := by
  have h : t.values = t.foldr (fun _ v acc => v :: acc) [] := by
    rcases t with ⟨⟨t⟩⟩
    rfl
  rw [h, Std.ExtTreeMap.foldr_eq_foldr_toList]
  induction t.toList with
  | nil => rfl
  | cons a l ih => simp [ih]

variable [Std.LawfulEqCmp cmp]

theorem mem_values_iff {t : Std.ExtTreeMap α β cmp} {b : β} :
    b ∈ t.values ↔ ∃ a : α, t[a]? = some b := by
  simp [values_eq_map_toList, Std.ExtTreeMap.mem_toList_iff_getElem?_eq_some]

theorem nodup_values {t : Std.ExtTreeMap α β cmp}
    (h : ∀ {a a' : α} {b : β}, t[a]? = some b → t[a']? = some b → a = a') : t.values.Nodup := by
  rw [values_eq_map_toList, List.Nodup, List.pairwise_map]
  refine t.distinct_keys_toList.imp_of_mem fun {x y} hx hy hne heq => hne ?_
  rw [Std.LawfulEqCmp.compare_eq_iff_eq]
  have hx := Std.ExtTreeMap.mem_toList_iff_getElem?_eq_some.1 hx
  have hy := Std.ExtTreeMap.mem_toList_iff_getElem?_eq_some.1 hy
  exact h hx (heq ▸ hy)
end

def Role.slot? : Role → Option String
  | .output => none
  | .input slot => some slot

/-- What a block has besides types and a warning. -/
structure Ports where
  kind : BlockKind
  output : Option SocketId
  inputs : List SocketId

def Ports.sockets (p : Ports) : List SocketId := p.output.toList ++ p.inputs

structure Shape where
  ports : BlockId → Option Ports
  /-- The block that a socket is on, and what it is there. -/
  site : SocketId → Option (BlockId × Role)
  peer : SocketId → Option SocketId
  nextBlock : Nat
  nextSocket : Nat

namespace Shape

variable {sh sh' : Shape}

/-- The slot that a socket goes by, if it is an input. -/
def slot (sh : Shape) (s : SocketId) : Option String := (sh.site s).bind fun r => r.2.slot?

/-- The block at the other end of a socket. -/
def guest (sh : Shape) (s : SocketId) : Option BlockId :=
  (sh.peer s).bind fun d => (sh.site d).map (·.1)

/-- The output of `c` is plugged into an input of `b`. -/
def Plugged (sh : Shape) (c b : BlockId) : Prop :=
  ∃ s d slot, sh.site s = some (c, .output) ∧ sh.peer s = some d ∧
    sh.site d = some (b, .input slot)

/-- The block `c` is `b` or somewhere below it. -/
abbrev Below (sh : Shape) (c b : BlockId) : Prop := ReflTransGen sh.Plugged c b

/-- The two blocks are plugged together, directly or not. -/
abbrev Connected (sh : Shape) (b c : BlockId) : Prop :=
  ReflTransGen (fun b c => sh.Plugged c b ∨ sh.Plugged b c) b c

/-- No block is below itself. -/
def Acyclic (sh : Shape) : Prop := ∀ b, ¬ TransGen sh.Plugged b b

/-- Links go both ways, between an output and an input. -/
structure Linked (sh : Shape) : Prop where
  symm : ∀ {s d}, sh.peer s = some d → sh.peer d = some s
  joins : ∀ {s d}, sh.peer s = some d →
    (∃ b c slot, sh.site s = some (b, .output) ∧ sh.site d = some (c, .input slot)) ∨
      ∃ b c slot, sh.site s = some (b, .input slot) ∧ sh.site d = some (c, .output)

/-- A block lists exactly the sockets that are on it, and no two inputs in one slot. -/
structure Lists (sh : Shape) (b : BlockId) (p : Ports) : Prop where
  mem_iff : ∀ s, s ∈ p.sockets ↔ ∃ role, sh.site s = some (b, role)
  output : ∀ {s}, p.output = some s → sh.site s = some (b, .output)
  input : ∀ {s}, s ∈ p.inputs → ∃ slot, sh.site s = some (b, .input slot)
  distinct : (p.inputs.map sh.slot).Nodup

structure Wired (sh : Shape) : Prop extends sh.Linked where
  block_lt : ∀ {b p}, sh.ports b = some p → b.index < sh.nextBlock
  socket_lt : ∀ {s r}, sh.site s = some r → s.index < sh.nextSocket
  owner : ∀ {s b role}, sh.site s = some (b, role) → ∃ p, sh.ports b = some p
  lists : ∀ {b p}, sh.ports b = some p → sh.Lists b p

namespace Lists

variable {b : BlockId} {p : Ports}

theorem nodup (h : sh.Lists b p) : p.sockets.Nodup := by
  refine List.nodup_append.2 ⟨?_, h.distinct.of_map _, ?_⟩
  · cases p.output <;> simp
  · rintro s hs _ hd rfl
    have hout := h.output (Option.mem_toList.1 hs)
    obtain ⟨slot, hin⟩ := h.input hd
    rw [hout] at hin
    cases hin

theorem output_eq_some (h : sh.Lists b p) {s : SocketId} :
    p.output = some s ↔ sh.site s = some (b, .output) := by
  refine ⟨h.output, fun hs => ?_⟩
  rcases List.mem_append.1 ((h.mem_iff s).2 ⟨_, hs⟩) with hmem | hmem
  · exact Option.mem_toList.1 hmem
  · obtain ⟨slot, hin⟩ := h.input hmem
    rw [hs] at hin
    cases hin

theorem mem_inputs (h : sh.Lists b p) {s : SocketId} :
    s ∈ p.inputs ↔ ∃ slot, sh.site s = some (b, .input slot) := by
  refine ⟨h.input, fun ⟨slot, hs⟩ => ?_⟩
  rcases List.mem_append.1 ((h.mem_iff s).2 ⟨_, hs⟩) with hmem | hmem
  · have hout := h.output (Option.mem_toList.1 hmem)
    rw [hs] at hout
    cases hout
  · exact hmem

/-- No two inputs of a block go by one slot. -/
theorem input_unique (h : sh.Lists b p) {s d : SocketId} {slot : String}
    (hs : sh.site s = some (b, .input slot)) (hd : sh.site d = some (b, .input slot)) : s = d :=
  List.inj_on_of_nodup_map h.distinct (h.mem_inputs.2 ⟨slot, hs⟩) (h.mem_inputs.2 ⟨slot, hd⟩)
    (by rw [Shape.slot, Shape.slot, hs, hd])

end Lists

theorem Linked.site_of_peer (h : sh.Linked) {s d : SocketId} (hd : sh.peer s = some d) :
    ∃ r, sh.site d = some r := by
  rcases h.joins hd with ⟨-, c, slot, -, hsite⟩ | ⟨-, c, -, -, hsite⟩
  · exact ⟨_, hsite⟩
  · exact ⟨_, hsite⟩

theorem guest_eq_some {s : SocketId} {b : BlockId} :
    sh.guest s = some b ↔ ∃ d role, sh.peer s = some d ∧ sh.site d = some (b, role) := by
  simp only [guest, Option.bind_eq_some_iff, Option.map_eq_some_iff, Prod.exists, exists_and_right,
    exists_eq_right]
  constructor
  · rintro ⟨d, hd, role, hs⟩
    exact ⟨d, role, hd, hs⟩
  · rintro ⟨d, role, hd, hs⟩
    exact ⟨d, hd, role, hs⟩

namespace Wired

variable (h : sh.Wired)

include h

theorem plugged_iff_output {c b : BlockId} {p : Ports} (hp : sh.ports c = some p) :
    sh.Plugged c b ↔ ∃ s, p.output = some s ∧ sh.guest s = some b := by
  constructor
  · rintro ⟨s, d, slot, hs, hd, hb⟩
    exact ⟨s, (h.lists hp).output_eq_some.2 hs, guest_eq_some.2 ⟨d, _, hd, hb⟩⟩
  · rintro ⟨s, hs, hguest⟩
    obtain ⟨d, role, hd, hb⟩ := guest_eq_some.1 hguest
    have hs := (h.lists hp).output hs
    rcases h.joins hd with ⟨b₁, b₂, slot, hs', hd'⟩ | ⟨b₁, b₂, slot, hs', -⟩
    · rw [hb] at hd'
      cases hd'
      exact ⟨s, d, slot, hs, hd, hb⟩
    · rw [hs] at hs'
      cases hs'

theorem plugged_iff_input {c b : BlockId} {p : Ports} (hp : sh.ports b = some p) :
    sh.Plugged c b ↔ ∃ s ∈ p.inputs, sh.guest s = some c := by
  constructor
  · rintro ⟨s, d, slot, hs, hd, hb⟩
    exact ⟨d, (h.lists hp).mem_inputs.2 ⟨slot, hb⟩, guest_eq_some.2 ⟨s, _, h.symm hd, hs⟩⟩
  · rintro ⟨d, hd, hguest⟩
    obtain ⟨s, role, hs, hc⟩ := guest_eq_some.1 hguest
    obtain ⟨slot, hd⟩ := (h.lists hp).input hd
    rcases h.joins hs with ⟨b₁, b₂, slot', hd', -⟩ | ⟨b₁, b₂, slot', hd', hs'⟩
    · rw [hd] at hd'
      cases hd'
    · rw [hc] at hs'
      cases hs'
      exact ⟨s, d, slot, hc, h.symm hs, hd⟩

theorem plugged_of_guest {b c : BlockId} {s : SocketId} {slot : String}
    (hs : sh.site s = some (b, .input slot)) (hc : sh.guest s = some c) : sh.Plugged c b := by
  obtain ⟨p, hp⟩ := h.owner hs
  exact (h.plugged_iff_input hp).2 ⟨s, (h.lists hp).mem_inputs.2 ⟨slot, hs⟩, hc⟩

/-- The output of a block is plugged into one input. -/
theorem guest_unique {b c d : BlockId} {s s' : SocketId} {slot slot' : String}
    (hs : sh.site s = some (b, .input slot)) (hs' : sh.site s' = some (d, .input slot'))
    (hc : sh.guest s = some c) (hc' : sh.guest s' = some c) : s = s' := by
  have hpeer : ∀ {x b slot}, sh.site x = some (b, .input slot) → sh.guest x = some c →
      ∃ o, sh.site o = some (c, .output) ∧ sh.peer o = some x := by
    intro x b slot hx hguest
    obtain ⟨o, role, ho, hsite⟩ := guest_eq_some.1 hguest
    rcases h.joins ho with ⟨_, _, _, hx', -⟩ | ⟨_, _, _, -, ho'⟩
    · rw [hx] at hx'
      cases hx'
    · rw [hsite] at ho'
      cases ho'
      exact ⟨o, hsite, h.symm ho⟩
  obtain ⟨o, ho, hx⟩ := hpeer hs hc
  obtain ⟨o', ho', hx'⟩ := hpeer hs' hc'
  obtain ⟨p, hp⟩ := h.owner ho
  have hlists := h.lists hp
  cases (hlists.output_eq_some.2 ho).symm.trans (hlists.output_eq_some.2 ho')
  exact Option.some.inj (hx.symm.trans hx')

theorem ports_of_plugged {c b : BlockId} (hplug : sh.Plugged c b) :
    (∃ p, sh.ports c = some p) ∧ ∃ p, sh.ports b = some p := by
  obtain ⟨s, d, slot, hs, -, hb⟩ := hplug
  exact ⟨h.owner hs, h.owner hb⟩

theorem ports_of_connected {b c : BlockId} (hb : ∃ p, sh.ports b = some p)
    (hbc : sh.Connected b c) : ∃ p, sh.ports c = some p := by
  induction hbc with
  | refl => exact hb
  | tail _ hstep _ =>
      rcases hstep with hplug | hplug
      · exact (h.ports_of_plugged hplug).1
      · exact (h.ports_of_plugged hplug).2

/-- A block is plugged into one block at most. -/
theorem plugged_unique {c b b' : BlockId} (hb : sh.Plugged c b) (hb' : sh.Plugged c b') :
    b = b' := by
  obtain ⟨p, hp⟩ := (h.ports_of_plugged hb).1
  obtain ⟨s, hs, hguest⟩ := (h.plugged_iff_output hp).1 hb
  obtain ⟨s', hs', hguest'⟩ := (h.plugged_iff_output hp).1 hb'
  rw [hs] at hs'
  cases hs'
  rw [hguest] at hguest'
  exact Option.some.inj hguest'

end Wired

end Shape

namespace Graph

def shape (g : Graph) : Shape where
  ports b := g.blocks[b]?.map fun block => ⟨block.kind, block.output, block.inputs⟩
  site s := g.sockets[s]?.map fun socket => (socket.block, socket.role)
  peer s := g.sockets[s]?.bind (·.peer)
  nextBlock := g.nextBlock
  nextSocket := g.nextSocket

variable {g : Graph} {b : BlockId} {s : SocketId}

theorem shape_ports_eq_some {p : Ports} :
    g.shape.ports b = some p ↔
      ∃ block, g.blocks[b]? = some block ∧ ⟨block.kind, block.output, block.inputs⟩ = p :=
  Option.map_eq_some_iff

theorem shape_site_eq_some {r : BlockId × Role} :
    g.shape.site s = some r ↔
      ∃ socket, g.sockets[s]? = some socket ∧ (socket.block, socket.role) = r :=
  Option.map_eq_some_iff

theorem shape_peer_eq_some {d : SocketId} :
    g.shape.peer s = some d ↔ ∃ socket, g.sockets[s]? = some socket ∧ socket.peer = some d :=
  Option.bind_eq_some_iff

theorem shape_slot (g : Graph) (s : SocketId) :
    g.shape.slot s = g.sockets[s]?.bind Socket.slot? := by
  cases hs : g.sockets[s]? with
  | none => simp [Shape.slot, shape, hs]
  | some socket =>
      cases hr : socket.role <;> simp [Shape.slot, shape, hs, Socket.slot?, Role.slot?, hr]

theorem block_eq_ok {block : Block} : g.block b = .ok block ↔ g.blocks[b]? = some block := by
  rw [Graph.block]
  cases g.blocks[b]? <;> simp

theorem socket_eq_ok {socket : Socket} : g.socket s = .ok socket ↔ g.sockets[s]? = some socket := by
  rw [Graph.socket]
  cases g.sockets[s]? <;> simp

theorem contains_iff : g.contains b ↔ ∃ p, g.shape.ports b = some p := by
  simp only [contains, shape, ← Option.isSome_iff_exists, Option.isSome_map,
    Std.ExtTreeMap.isSome_getElem?_eq_contains]

theorem block_of_neighbours {found : List BlockId} (h : g.neighbours b = .ok found) :
    ∃ block, g.blocks[b]? = some block := by
  cases hb : g.blocks[b]? with
  | some block => exact ⟨block, rfl⟩
  | none =>
      rw [neighbours, children, Graph.block, hb] at h
      cases h

/-- The blocks there are. -/
def world (g : Graph) : Finset BlockId := g.blockIds.toFinset

theorem mem_world : b ∈ g.world ↔ ∃ p, g.shape.ports b = some p := by
  rw [world, List.mem_toFinset, blockIds, Std.ExtTreeMap.mem_keys, ← contains_iff]
  exact Iff.rfl

theorem card_world_lt (g : Graph) : g.world.card < g.depth := by
  have hle := List.toFinset_card_le g.blockIds
  rw [blockIds, Std.ExtTreeMap.length_keys] at hle
  exact Nat.lt_succ_of_le hle

/-- The bound on walks is enough for one that has seen nothing yet. -/
theorem card_unseen_empty_lt (g : Graph) : (unseen g.world ∅).card < g.depth :=
  Nat.lt_of_le_of_lt (Finset.card_filter_le _ _) g.card_world_lt

theorem mem_world_of_block {block : Block} (h : g.block b = .ok block) : b ∈ g.world :=
  mem_world.2 ⟨_, shape_ports_eq_some.2 ⟨block, block_eq_ok.1 h, rfl⟩⟩

theorem mem_world_of_children {following : List BlockId} (h : g.children b = .ok following) :
    b ∈ g.world :=
  let ⟨_, hblock, _⟩ := bind_eq_ok.1 h
  mem_world_of_block hblock

/-- What is plugged into a listed input is a child. -/
theorem mem_children_of_input {block : Block} {following : List BlockId} {s : SocketId}
    {c : BlockId} (hchildren : g.children b = .ok following) (hblock : g.block b = .ok block)
    (hs : s ∈ block.inputs) (hc : g.pluggedBlock s = .ok (some c)) : c ∈ following := by
  obtain ⟨_, hblock', hchildren⟩ := bind_eq_ok.1 hchildren
  cases hblock.symm.trans hblock'
  obtain ⟨plugged, hplugged, heq⟩ := bind_eq_ok.1 hchildren
  cases heq
  obtain ⟨part, rfl, hpart⟩ := mapM_eq_ok.1 hplugged
  have heq := Except.ok.inj ((hpart s hs).symm.trans hc)
  exact List.mem_filterMap.2 ⟨some c, heq ▸ List.mem_map_of_mem hs, rfl⟩

theorem pluggedBlock_eq_of_linked (h : g.shape.Linked) {r : BlockId × Role}
    (hs : g.shape.site s = some r) : g.pluggedBlock s = .ok (g.shape.guest s) := by
  obtain ⟨found, hfound, -⟩ := shape_site_eq_some.1 hs
  have hpeer : g.shape.peer s = found.peer := by simp [shape, hfound]
  rw [pluggedBlock, Graph.socket, hfound, Shape.guest, hpeer]
  cases hd : found.peer with
  | none => simp [bind, Except.bind, hd, pure, Except.pure]
  | some d =>
      obtain ⟨other, hother, -⟩ := shape_peer_eq_some.1 (h.symm (hpeer.trans hd))
      simp [bind, Except.bind, hd, Graph.socket, hother, shape, pure, Except.pure]

section

variable (h : g.shape.Wired)

include h

theorem pluggedBlock_eq {r : BlockId × Role} (hs : g.shape.site s = some r) :
    g.pluggedBlock s = .ok (g.shape.guest s) :=
  pluggedBlock_eq_of_linked h.toLinked hs

theorem exists_children_eq {p : Ports} (hp : g.shape.ports b = some p) :
    ∃ cs, g.children b = .ok cs ∧ ∀ c, c ∈ cs ↔ g.shape.Plugged c b := by
  obtain ⟨block, hblock, rfl⟩ := shape_ports_eq_some.1 hp
  have hmap : block.inputs.mapM g.pluggedBlock = .ok (block.inputs.map g.shape.guest) := by
    have hinput : ∀ s ∈ block.inputs, ∃ r, g.shape.site s = some r := fun s hs =>
      let ⟨slot, hsite⟩ := (h.lists hp).input hs
      ⟨_, hsite⟩
    generalize block.inputs = inputs at hinput
    induction inputs with
    | nil => rfl
    | cons s ss ih =>
        obtain ⟨r, hr⟩ := hinput s List.mem_cons_self
        rw [List.mapM_cons, pluggedBlock_eq h hr, ih fun s' hs' =>
          hinput s' (List.mem_cons_of_mem s hs')]
        rfl
  refine ⟨(block.inputs.map g.shape.guest).filterMap id, ?_, fun c => ?_⟩
  · rw [children, Graph.block, hblock]
    change (block.inputs.mapM g.pluggedBlock >>= fun plugged => pure (plugged.filterMap id)) = _
    rw [hmap]
    rfl
  · rw [h.plugged_iff_input hp]
    simp

theorem parent_eq {p : Ports} (hp : g.shape.ports b = some p) :
    g.parent b = .ok (p.output.bind g.shape.guest) := by
  obtain ⟨block, hblock, rfl⟩ := shape_ports_eq_some.1 hp
  rw [parent, Graph.block, hblock]
  cases hs : block.output with
  | none => simp [bind, Except.bind, hs, pure, Except.pure]
  | some s =>
      have hsite := (h.lists hp).output hs
      simp [bind, Except.bind, hs, pluggedBlock_eq h hsite]

theorem parent_eq_some {p : Ports} (hp : g.shape.ports b = some p) {c : BlockId} :
    g.parent b = .ok (some c) ↔ g.shape.Plugged b c := by
  rw [parent_eq h hp, h.plugged_iff_output hp, Except.ok.injEq, Option.bind_eq_some_iff]

/-- The input of a block that goes by a slot: there is no other. -/
theorem inputNamed_eq_ok {p : Ports} (hp : g.shape.ports b = some p) {slot : String} :
    g.inputNamed b slot = .ok s ↔ g.shape.site s = some (b, .input slot) := by
  obtain ⟨block, hblock, rfl⟩ := shape_ports_eq_some.1 hp
  have hlists := h.lists hp
  have hslot : ∀ s ∈ block.inputs, ((g.sockets[s]?.bind Socket.slot?) == some slot) = true ↔
      g.shape.site s = some (b, .input slot) := by
    intro s hs
    obtain ⟨slot', hsite⟩ := hlists.input hs
    rw [beq_iff_eq, ← shape_slot, Shape.slot, hsite]
    simp [Role.slot?]
  rw [inputNamed, Graph.block, hblock]
  cases hfind : block.inputs.find? fun s => (g.sockets[s]?.bind Socket.slot?) == some slot with
  | some d =>
      have hfound := List.find?_some hfind
      have hd := (hslot d (List.mem_of_find?_eq_some hfind)).1 hfound
      simp only [bind, Except.bind, hfind, pure, Except.pure, Except.ok.injEq]
      exact ⟨fun hds => hds ▸ hd, fun hs => hlists.input_unique hd hs⟩
  | none =>
      simp only [bind, Except.bind, hfind, throw, throwThe, MonadExceptOf.throw, reduceCtorEq,
        false_iff]
      intro hs
      have hmem := hlists.mem_inputs.2 ⟨slot, hs⟩
      exact List.find?_eq_none.1 hfind s hmem ((hslot s hmem).2 hs)

theorem confines_children : Confines g.world g.children := by
  intro b hb
  obtain ⟨p, hp⟩ := mem_world.1 hb
  obtain ⟨cs, hcs, hmem⟩ := exists_children_eq h hp
  exact ⟨cs, hcs, fun c hc => mem_world.2 (h.ports_of_plugged ((hmem c).1 hc)).1⟩

theorem leads_children_iff {c : BlockId} : Leads g.children b c ↔ g.shape.Plugged c b := by
  constructor
  · rintro ⟨cs, hcs, hc⟩
    cases hblock : g.blocks[b]? with
    | none =>
        rw [children, Graph.block, hblock] at hcs
        cases hcs
    | some block =>
        obtain ⟨cs', hcs', hmem⟩ :=
          exists_children_eq h (shape_ports_eq_some.2 ⟨block, hblock, rfl⟩)
        rw [hcs', Except.ok.injEq] at hcs
        exact (hmem c).1 (hcs ▸ hc)
  · intro hplug
    obtain ⟨p, hp⟩ := (h.ports_of_plugged hplug).2
    obtain ⟨cs, hcs, hmem⟩ := exists_children_eq h hp
    exact ⟨cs, hcs, (hmem c).2 hplug⟩

/-- The walk down from a block finds what is below it. -/
theorem exists_descendants_eq {p : Ports} (hp : g.shape.ports b = some p) :
    ∃ found, g.descendants b = .ok found ∧ ∀ c, c ∈ found ↔ g.shape.Below c b := by
  obtain ⟨found, hrun, hmem⟩ :=
    exists_explore_eq (confines_children h) (mem_world.2 ⟨p, hp⟩) g.card_world_lt
  refine ⟨found, hrun, fun c => (hmem c).trans ?_⟩
  have hswap : Leads g.children = Function.swap g.shape.Plugged :=
    funext fun b => funext fun c => propext (leads_children_iff h)
  rw [hswap, reflTransGen_swap]

theorem exists_neighbours_eq {p : Ports} (hp : g.shape.ports b = some p) :
    ∃ cs, g.neighbours b = .ok cs ∧
      ∀ c, c ∈ cs ↔ g.shape.Plugged c b ∨ g.shape.Plugged b c := by
  obtain ⟨cs, hcs, hmem⟩ := exists_children_eq h hp
  refine ⟨cs ++ (p.output.bind g.shape.guest).toList, ?_, fun c => ?_⟩
  · rw [neighbours, hcs]
    change (g.parent b >>= fun parent => pure (cs ++ parent.toList)) = _
    rw [parent_eq h hp]
    rfl
  · rw [List.mem_append, hmem, Option.mem_toList, h.plugged_iff_output (b := c) hp,
      Option.bind_eq_some_iff]

theorem confines_neighbours : Confines g.world g.neighbours := by
  intro b hb
  obtain ⟨p, hp⟩ := mem_world.1 hb
  obtain ⟨cs, hcs, hmem⟩ := exists_neighbours_eq h hp
  refine ⟨cs, hcs, fun c hc => mem_world.2 ?_⟩
  rcases (hmem c).1 hc with hplug | hplug
  · exact (h.ports_of_plugged hplug).1
  · exact (h.ports_of_plugged hplug).2

theorem leads_neighbours_iff {c : BlockId} :
    Leads g.neighbours b c ↔ g.shape.Plugged c b ∨ g.shape.Plugged b c := by
  constructor
  · rintro ⟨cs, hcs, hc⟩
    cases hblock : g.blocks[b]? with
    | none =>
        rw [neighbours, children, Graph.block, hblock] at hcs
        cases hcs
    | some block =>
        obtain ⟨cs', hcs', hmem⟩ :=
          exists_neighbours_eq h (shape_ports_eq_some.2 ⟨block, hblock, rfl⟩)
        rw [hcs', Except.ok.injEq] at hcs
        exact (hmem c).1 (hcs ▸ hc)
  · intro hplug
    have hlive : ∃ p, g.shape.ports b = some p := by
      rcases hplug with hplug | hplug
      · exact (h.ports_of_plugged hplug).2
      · exact (h.ports_of_plugged hplug).1
    obtain ⟨p, hp⟩ := hlive
    obtain ⟨cs, hcs, hmem⟩ := exists_neighbours_eq h hp
    exact ⟨cs, hcs, (hmem c).2 hplug⟩

/-- The walk in all directions finds what is plugged together with a block. -/
theorem exists_component_eq {p : Ports} (hp : g.shape.ports b = some p) :
    ∃ found, g.component b = .ok found ∧ ∀ c, c ∈ found ↔ g.shape.Connected b c := by
  obtain ⟨found, hrun, hmem⟩ :=
    exists_explore_eq (confines_neighbours h) (mem_world.2 ⟨p, hp⟩) g.card_world_lt
  refine ⟨found, hrun, fun c => (hmem c).trans ?_⟩
  have hleads : Leads g.neighbours = fun b c => g.shape.Plugged c b ∨ g.shape.Plugged b c :=
    funext fun b => funext fun c => propext (leads_neighbours_iff h)
  rw [hleads]

/-- A block joins with all that is plugged together with it, or it is there already. -/
theorem exists_components_eq {bs : List BlockId} (hlive : ∀ b ∈ bs, ∃ p, g.shape.ports b = some p) :
    ∃ found, g.components bs = .ok found ∧ ∀ c, c ∈ found ↔ ∃ b ∈ bs, g.shape.Connected b c := by
  have hfold : ∀ (bs done : List BlockId) (acc : BlockSet),
      (∀ b ∈ bs, ∃ p, g.shape.ports b = some p) →
      (∀ c, c ∈ acc ↔ ∃ b ∈ done, g.shape.Connected b c) →
      ∃ found, bs.foldlM (fun members b => do
          if members.contains b then return members
          else return members ∪ (← g.component b)) acc = .ok found ∧
        ∀ c, c ∈ found ↔ ∃ b ∈ done ++ bs, g.shape.Connected b c := by
    intro bs
    induction bs with
    | nil => exact fun done acc _ hacc => ⟨acc, rfl, by simpa using hacc⟩
    | cons b bs ih =>
        intro done acc hlive hacc
        rw [List.forall_mem_cons] at hlive
        rw [List.foldlM_cons, List.append_cons]
        obtain ⟨p, hp⟩ := hlive.1
        obtain ⟨found, hrun, hfound⟩ := exists_component_eq h hp
        have hmore : ∀ c, (∃ x ∈ done ++ [b], g.shape.Connected x c) ↔
            (∃ x ∈ done, g.shape.Connected x c) ∨ g.shape.Connected b c := by
          intro c
          simp only [List.mem_append, List.mem_singleton, or_and_right, exists_or,
            exists_eq_left]
        by_cases hb : b ∈ acc
        · rw [if_pos (Std.ExtTreeSet.mem_iff_contains.1 hb)]
          refine ih (done ++ [b]) acc hlive.2 fun c => (hacc c).trans ?_
          rw [hmore]
          obtain ⟨x, hx, hxb⟩ := (hacc b).1 hb
          exact ⟨.inl, fun h => h.elim id fun hbc => ⟨x, hx, hxb.trans hbc⟩⟩
        · rw [if_neg fun h => hb (Std.ExtTreeSet.mem_iff_contains.2 h), hrun]
          refine ih (done ++ [b]) (acc ∪ found) hlive.2 fun c => ?_
          rw [Std.ExtTreeSet.mem_union_iff, hacc, hfound, hmore]
  exact hfold bs [] ∅ hlive (by simp)

theorem climb_eq (hacyclic : g.shape.Acyclic) (fuel : Nat) {seen : BlockSet} {p : Ports}
    (hp : g.shape.ports b = some p) (hseen : ∀ x ∈ seen, TransGen g.shape.Plugged x b)
    (hfuel : (unseen g.world seen).card < fuel) :
    ∃ top, g.climb fuel seen b = .ok top ∧ g.shape.Below b top ∧ g.parent top = .ok none := by
  induction fuel generalizing seen b p with
  | zero => exact (Nat.not_lt_zero _ hfuel).elim
  | succ fuel ih =>
      rw [climb]
      cases hout : p.output.bind g.shape.guest with
      | none =>
          have hparent := (parent_eq h hp).trans (congrArg _ hout)
          exact ⟨b, by rw [hparent]; rfl, .refl, hparent⟩
      | some c =>
          have hparent := (parent_eq h hp).trans (congrArg _ hout)
          have hplug := (parent_eq_some h hp).1 hparent
          have hnew : b ∉ seen := fun hb => hacyclic b (hseen b hb)
          obtain ⟨q, hq⟩ := (h.ports_of_plugged hplug).2
          have hless := unseen_insert_lt (mem_world.2 ⟨p, hp⟩) hnew
          have hseen' : ∀ x ∈ seen.insert b, TransGen g.shape.Plugged x c := by
            intro x hx
            rcases mem_insert.1 hx with rfl | hx
            · exact .single hplug
            · exact (hseen x hx).tail hplug
          obtain ⟨top, hrun, hbelow, htop⟩ := ih hq hseen' (by omega)
          refine ⟨top, ?_, hbelow.head hplug, htop⟩
          simpa [hparent, bind, Except.bind, hnew] using hrun

/-- Following parents ends at a block that is plugged into nothing. -/
theorem exists_rootOf_eq (hacyclic : g.shape.Acyclic) {p : Ports}
    (hp : g.shape.ports b = some p) :
    ∃ top, g.rootOf b = .ok top ∧ g.shape.Below b top ∧ g.parent top = .ok none := by
  refine climb_eq h hacyclic g.depth hp (fun x hx => (Std.ExtTreeSet.not_mem_empty hx).elim) ?_
  exact Nat.lt_of_le_of_lt (Finset.card_filter_le _ _) g.card_world_lt

end

end Graph

end Plugboard
