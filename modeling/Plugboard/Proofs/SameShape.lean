import Plugboard.Proofs.RelatedMaps
import Plugboard.Proofs.TwoRuns
import Plugboard.Workspace.Edit

/-!
# Questions about the shape

Most of what is asked about a canvas is answered by its shape: walks, the terms of blocks, calls
and declarations do not depend on the types that are kept, nor on warnings.
-/

namespace Plugboard

/-- The blocks differ in types and warnings only. -/
structure Block.SamePorts (x x' : Block) : Prop where
  kind : x'.kind = x.kind
  output : x'.output = x.output
  inputs : x'.inputs = x.inputs

/-- The sockets differ in types only. -/
structure Socket.SameSite (x x' : Socket) : Prop where
  block : x'.block = x.block
  role : x'.role = x.role
  peer : x'.peer = x.peer

theorem Socket.SameSite.slot? {x x' : Socket} (h : x.SameSite x') : x'.slot? = x.slot? := by
  rw [Socket.slot?, Socket.slot?, h.role]

theorem Socket.SameSite.isOutput {x x' : Socket} (h : x.SameSite x') :
    x'.isOutput = x.isOutput := by
  rw [Socket.isOutput, Socket.isOutput, h.role]

namespace Graph

/-- Looking for cycles reads nothing but what is plugged into what. -/
theorem checkAcyclic_congr {g g' : Graph} (hchildren : g'.children = g.children)
    (hdepth : g'.depth = g.depth) : g'.checkAcyclic = g.checkAcyclic := by
  have hdescend : ∀ fuel, g'.descend fuel = g.descend fuel := by
    intro fuel
    induction fuel with
    | zero => rfl
    | succ fuel ih =>
        funext path done b
        simp only [descend, hchildren, ih]
  funext b
  rw [checkAcyclic, checkAcyclic, hdepth, hdescend]

/-- The canvases differ in types and warnings only. -/
structure SameShape (g g' : Graph) : Prop where
  blocks : Related Block.SamePorts g.blocks g'.blocks
  sockets : Related Socket.SameSite g.sockets g'.sockets
  nextBlock : g'.nextBlock = g.nextBlock
  nextSocket : g'.nextSocket = g.nextSocket

namespace SameShape

variable {g g' : Graph}

theorem of_shape_eq (h : g'.shape = g.shape) : g.SameShape g' where
  blocks b := by
    have hports := congrFun (congrArg Shape.ports h) b
    simp only [shape] at hports
    generalize g.blocks[b]? = x at hports ⊢
    generalize g'.blocks[b]? = x' at hports ⊢
    cases x <;> cases x' <;> simp at hports
    · exact .none
    · exact .some ⟨hports.1, hports.2.1, hports.2.2⟩
  sockets s := by
    have hsite := congrFun (congrArg Shape.site h) s
    have hpeer := congrFun (congrArg Shape.peer h) s
    simp only [shape] at hsite hpeer
    generalize g.sockets[s]? = x at hsite hpeer ⊢
    generalize g'.sockets[s]? = x' at hsite hpeer ⊢
    cases x <;> cases x' <;> simp at hsite
    · exact .none
    · exact .some ⟨hsite.1, hsite.2, hpeer⟩
  nextBlock := congrArg Shape.nextBlock h
  nextSocket := congrArg Shape.nextSocket h

theorem shape_eq (h : g.SameShape g') : g'.shape = g.shape := by
  have hports : g'.shape.ports = g.shape.ports := by
    funext b
    have hb := h.blocks b
    simp only [shape]
    generalize g.blocks[b]? = x at hb ⊢
    generalize g'.blocks[b]? = x' at hb ⊢
    cases hb with
    | none => rfl
    | some hx => simp [hx.kind, hx.output, hx.inputs]
  have hsite : g'.shape.site = g.shape.site ∧ g'.shape.peer = g.shape.peer := by
    constructor <;> funext s <;> have hs := h.sockets s <;> simp only [shape] <;>
      generalize g.sockets[s]? = x at hs ⊢ <;> generalize g'.sockets[s]? = x' at hs ⊢ <;>
      cases hs with
      | none => rfl
      | some hx => simp [hx.block, hx.role, hx.peer]
  exact Shape.mk.injEq .. ▸ ⟨hports, hsite.1, hsite.2, h.nextBlock, h.nextSocket⟩

variable (h : g.SameShape g')

include h

theorem block (b : BlockId) : Outcomes Block.SamePorts Eq (g.block b) (g'.block b) := by
  have hb := h.blocks b
  rw [Graph.block, Graph.block]
  generalize g.blocks[b]? = x at hb ⊢
  generalize g'.blocks[b]? = x' at hb ⊢
  cases hb with
  | none => exact .error rfl
  | some hx => exact .ok hx

theorem socket (s : SocketId) : Outcomes Socket.SameSite Eq (g.socket s) (g'.socket s) := by
  have hs := h.sockets s
  rw [Graph.socket, Graph.socket]
  generalize g.sockets[s]? = x at hs ⊢
  generalize g'.sockets[s]? = x' at hs ⊢
  cases hs with
  | none => exact .error rfl
  | some hx => exact .ok hx

theorem slot_eq (s : SocketId) :
    (g'.sockets[s]?.bind Socket.slot?) = g.sockets[s]?.bind Socket.slot? := by
  have hs := h.sockets s
  generalize g.sockets[s]? = x at hs ⊢
  generalize g'.sockets[s]? = x' at hs ⊢
  cases hs with
  | none => rfl
  | some hx => exact hx.slot?

theorem blockIds_eq : g'.blockIds = g.blockIds := h.blocks.keys

theorem contains_eq : g'.contains = g.contains := by
  funext b
  rw [Graph.contains, Graph.contains, ← Std.ExtTreeMap.isSome_getElem?_eq_contains,
    ← Std.ExtTreeMap.isSome_getElem?_eq_contains]
  have hb := h.blocks b
  generalize g.blocks[b]? = x at hb ⊢
  generalize g'.blocks[b]? = x' at hb ⊢
  cases hb <;> rfl

theorem depth_eq : g'.depth = g.depth := by
  have hlen := congrArg List.length h.blocks.keys
  rw [Std.ExtTreeMap.length_keys, Std.ExtTreeMap.length_keys] at hlen
  rw [depth, depth, hlen]

theorem inputNamed_eq : g'.inputNamed = g.inputNamed := by
  funext b slot
  refine (Outcomes.eq_iff.1 ((h.block b).bind fun x x' hx => Outcomes.eq_iff.2 ?_)).symm
  rw [hx.inputs]
  simp only [h.slot_eq]

theorem pluggedBlock_eq : g'.pluggedBlock = g.pluggedBlock := by
  funext s
  refine (Outcomes.eq_iff.1 ((h.socket s).bind fun x x' hx => ?_)).symm
  rw [hx.peer]
  cases x.peer with
  | none => exact .ok rfl
  | some peer => exact (h.socket peer).map fun _ _ hy => congrArg some hy.block.symm

theorem children_eq : g'.children = g.children := by
  funext b
  refine (Outcomes.eq_iff.1 ((h.block b).bind fun x x' hx => Outcomes.eq_iff.2 ?_)).symm
  rw [hx.inputs, h.pluggedBlock_eq]

theorem parent_eq : g'.parent = g.parent := by
  funext b
  refine (Outcomes.eq_iff.1 ((h.block b).bind fun x x' hx => Outcomes.eq_iff.2 ?_)).symm
  rw [hx.output, h.pluggedBlock_eq]

theorem topBlocks_eq : g'.topBlocks = g.topBlocks := by
  have htop : g'.isTop = g.isTop := by
    funext b
    rw [isTop, isTop, h.parent_eq]
  rw [topBlocks, topBlocks, h.blockIds_eq, htop]

theorem rootOf_eq : g'.rootOf = g.rootOf := by
  have hclimb : ∀ fuel, g'.climb fuel = g.climb fuel := by
    intro fuel
    induction fuel with
    | zero => rfl
    | succ fuel ih =>
        funext seen b
        simp only [climb, h.parent_eq, ih]
  funext b
  rw [rootOf, rootOf, h.depth_eq, hclimb]

theorem neighbours_eq : g'.neighbours = g.neighbours := by
  funext b
  rw [neighbours, neighbours, h.children_eq, h.parent_eq]

theorem descendants_eq : g'.descendants = g.descendants := by
  funext b
  rw [descendants, descendants, h.children_eq, h.depth_eq]

theorem component_eq : g'.component = g.component := by
  funext b
  rw [component, component, h.neighbours_eq, h.depth_eq]

theorem components_eq : g'.components = g.components := by
  funext blocks
  rw [components, components, h.component_eq]

theorem checkAcyclic_eq : g'.checkAcyclic = g.checkAcyclic :=
  checkAcyclic_congr h.children_eq h.depth_eq

theorem wouldCycle_eq : g'.wouldCycle = g.wouldCycle := by
  funext output input
  refine (Outcomes.eq_iff.1 ((h.socket output).bind fun x x' hx => ?_)).symm
  refine (h.socket input).bind fun y y' hy => Outcomes.eq_iff.2 ?_
  rw [hx.block, hy.block, h.descendants_eq]

theorem linksWithin_eq : g'.linksWithin = g.linksWithin := by
  funext blocks
  rw [linksWithin, linksWithin]
  refine (List.forall₂_eq_eq_eq ▸ List.rel_filterMap (P := Eq) ?_ h.sockets.toList).symm
  rintro ⟨s, x⟩ ⟨_, x'⟩ ⟨rfl, hx⟩
  dsimp only
  rw [hx.isOutput, hx.block, hx.peer]
  split
  · cases x.peer with
    | none => exact .none
    | some peer => exact .some rfl
  · exact .none

theorem lower_eq : g'.lower = g.lower := by
  have hslot : g'.lowerSlot = g.lowerSlot := by
    funext lowerChild b slot
    rw [lowerSlot, lowerSlot, h.inputNamed_eq, h.pluggedBlock_eq]
  have hblock : ∀ fuel, g'.lowerBlock fuel = g.lowerBlock fuel := by
    intro fuel
    induction fuel with
    | zero => rfl
    | succ fuel ih =>
        funext b
        refine (Outcomes.eq_iff.1 ((h.block b).bind fun x x' hx => Outcomes.eq_iff.2 ?_)).symm
        rw [hx.kind, ih, hslot]
  funext b
  rw [lower, lower, h.checkAcyclic_eq, h.depth_eq, hblock]

theorem placeBlock_eq : g'.placeBlock = g.placeBlock := by
  funext place
  cases place with
  | socket s =>
      exact (Outcomes.eq_iff.1 ((h.socket s).map fun _ _ hx => hx.block.symm)).symm
  | param b name => rfl

theorem places_eq : g'.places = g.places := by
  have hcontains : ∀ s, g'.sockets.contains s = g.sockets.contains s := by
    intro s
    rw [← Std.ExtTreeMap.isSome_getElem?_eq_contains, ← Std.ExtTreeMap.isSome_getElem?_eq_contains]
    have hs := h.sockets s
    generalize g.sockets[s]? = x at hs ⊢
    generalize g'.sockets[s]? = x' at hs ⊢
    cases hs <;> rfl
  funext tag t
  cases tag with
  | socket s => rw [places, places, hcontains]
  | block b =>
      refine (Outcomes.eq_iff.1 ((h.block b).bind fun x x' hx => Outcomes.eq_iff.2 ?_)).symm
      rw [hx.output, hx.kind, h.inputNamed_eq]

theorem followers_eq : g'.followers = g.followers := by
  funext placed blocks
  rw [followers, followers, h.linksWithin_eq]

theorem usesOf_eq : g'.usesOf = g.usesOf := by
  have hseeing : g'.childrenSeeing = g.childrenSeeing := by
    funext b name
    refine (Outcomes.eq_iff.1 ((h.block b).bind fun x x' hx => Outcomes.eq_iff.2 ?_)).symm
    rw [hx.inputs, hx.kind, h.pluggedBlock_eq]
    refine congrArg (· >>= _) (congrArg (List.mapM · x.inputs) (funext fun s => ?_))
    refine Outcomes.eq_iff.1 ((h.socket s).bind fun y y' hy => Outcomes.eq_iff.2 ?_)
    rw [hy.slot?]
  have hwithin : ∀ name fuel, g'.usesWithin name fuel = g.usesWithin name fuel := by
    intro name fuel
    induction fuel with
    | zero => rfl
    | succ fuel ih =>
        funext b
        refine (Outcomes.eq_iff.1 ((h.block b).bind fun x x' hx => Outcomes.eq_iff.2 ?_)).symm
        rw [hx.kind, hseeing, ih]
  funext b name
  rw [usesOf, usesOf, h.depth_eq, hwithin]

theorem callersOf_eq : g'.callersOf = g.callersOf := by
  funext name
  rw [callersOf, callersOf, h.blockIds_eq]
  refine List.filter_congr fun b _ => ?_
  have hb := h.blocks b
  generalize g.blocks[b]? = x at hb ⊢
  generalize g'.blocks[b]? = x' at hb ⊢
  cases hb with
  | none => rfl
  | some hx => simp only [Option.bind_some, hx.kind]

end SameShape

end Graph

namespace Workspace

variable {ws ws' : Workspace} (h : ws.main.SameShape ws'.main)

include h

theorem declarations_eq : ws'.declarations = ws.declarations := by
  rw [declarations, declarations]
  refine (List.forall₂_eq_eq_eq ▸ List.rel_filterMap (P := Eq) ?_ h.blocks.values).symm
  intro x x' hx
  dsimp only
  rw [hx.kind]
  cases x.kind.declaration? with
  | none => exact .none
  | some decl => exact .some rfl

theorem functions_eq : ws'.functions = ws.functions := by
  rw [functions, functions]
  refine (List.forall₂_eq_eq_eq ▸ List.rel_filterMap (P := Eq) ?_ h.blocks.toList).symm
  rintro ⟨b, x⟩ ⟨_, x'⟩ ⟨rfl, hx⟩
  dsimp only
  rw [hx.kind]
  cases x.kind.function? with
  | none => exact .none
  | some f => exact .some rfl

theorem declaration?_eq : ws'.declaration? = ws.declaration? := by
  funext name
  rw [declaration?, declaration?, declarations_eq h]

theorem functionNamed?_eq : ws'.functionNamed? = ws.functionNamed? := by
  funext name
  rw [functionNamed?, functionNamed?, functions_eq h]

theorem operatorScheme?_eq : ws'.operatorScheme? = ws.operatorScheme? := by
  funext name
  rw [operatorScheme?, operatorScheme?, declarations_eq h]

theorem calleeArity?_eq : ws'.calleeArity? = ws.calleeArity? := by
  funext name
  rw [calleeArity?, calleeArity?, operatorScheme?_eq h, functionNamed?_eq h]

theorem declaredEnv_eq : ws'.declaredEnv = ws.declaredEnv := by
  rw [declaredEnv, declaredEnv, declarations_eq h]

theorem callGraph_eq : ws'.callGraph = ws.callGraph := by
  have htable : ws'.functionTable = ws.functionTable := by
    rw [functionTable, functionTable, functions_eq h]
  have hbelow : ws'.calleesBelow = ws.calleesBelow := by
    funext b
    rw [calleesBelow, calleesBelow, h.descendants_eq, htable]
    refine congrArg (ws.main.descendants b >>= ·) (funext fun below => ?_)
    refine congrArg (fun callees : List BlockId => Except.ok (Std.ExtTreeSet.ofList callees))
      (List.filterMap_congr fun inner _ => ?_)
    have hb := h.blocks inner
    generalize ws.main.blocks[inner]? = x at hb ⊢
    generalize ws'.main.blocks[inner]? = x' at hb ⊢
    cases hb with
    | none => rfl
    | some hx => simp only [Option.bind_eq_bind, Option.bind_some, hx.kind]
  rw [callGraph, callGraph, htable, hbelow]

theorem member?_eq : ws'.member? = ws.member? := by
  funext b
  rw [member?, member?, h.lower_eq]
  have hb := h.blocks b
  generalize ws.main.blocks[b]? = x at hb ⊢
  generalize ws'.main.blocks[b]? = x' at hb ⊢
  cases hb with
  | none => rfl
  | some hx => simp only [Option.bind_eq_bind, Option.bind_some, hx.kind]

theorem blamed_eq (root : BlockId) {e e' : TypeError} (he : e.tag = e'.tag) :
    ws'.blamed root e' = ws.blamed root e := by
  rw [blamed, blamed, ← he, h.contains_eq]
  cases e.tag with
  | none => rfl
  | some tag =>
      cases tag with
      | block b => rfl
      | socket s =>
          have hs := h.sockets s
          dsimp only
          generalize ws.main.sockets[s]? = x at hs ⊢
          generalize ws'.main.sockets[s]? = x' at hs ⊢
          cases hs with
          | none => rfl
          | some hx => simp only [Option.map_some, hx.block]

end Workspace

end Plugboard
