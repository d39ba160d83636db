import Plugboard.Proofs.LoweredTrees
import Plugboard.Proofs.References

/-!
# Scopes on the canvas and in the term

What uses a parameter is looked for on the canvas, where blocks shadow names in their slots. It is
the variables that no binder captures in the term that the body of the function is lowered to.
-/

namespace Plugboard

open Relation Shape

namespace Graph

variable {g : Graph} {b c f : BlockId} {block : Block} {fuel : Nat} {name : String}

/-- The node of a variable block in a term of which the block is part: it is the only one with the
tag of the block, and around it are bound the names in `scope`. -/
def OccursUnder (e : Term) (outer : List String) (c : BlockId) (name : String)
    (scope : List String) : Prop :=
  (e.occurrences outer).filter (·.tag = some (.block c)) = [⟨name, some (.block c), scope⟩]

/-- What a search for a name below a block finds, compared with a term: every variable block of the
name is in the term once, and it is found, once, if the name is not bound around it there. -/
structure ScopesAgree (g : Graph) (b : BlockId) (name : String) (uses : List BlockId)
    (e : Term) : Prop where
  nodup : uses.Nodup
  below : ∀ c ∈ uses, g.shape.Below c b ∧
    ∃ block, g.blocks[c]? = some block ∧ block.kind = .variable name
  found : ∀ {c block}, g.shape.Below c b → g.blocks[c]? = some block →
    block.kind = .variable name → ∃ scope, OccursUnder e [] c name scope ∧
      (c ∈ uses ↔ name ∉ scope)

section

variable (h : g.shape.Regular ∅)

include h

/-- Of a path down from a block along which the name is seen, the first step is into the tree in
which the path ends. -/
theorem shows_iff {d : BlockId} (hd : g.shape.Plugged d b) (hc : g.shape.Below c d) :
    ReflTransGen (g.shape.Shows name) b c ↔
      g.shape.Shows name b d ∧ ReflTransGen (g.shape.Shows name) d c := by
  refine ⟨fun hpath => ?_, fun ⟨hstep, hpath⟩ => hpath.head hstep⟩
  rcases ReflTransGen.cases_head hpath with rfl | ⟨e, hstep, hpath⟩
  · exact (h.acyclic b (.tail' hc hd)).elim
  · have hsame := h.toWired.eq_of_below h.acyclic hc hd (h.toWired.below_of_shows hpath)
      (hstep.plugged h.toWired)
    exact hsame ▸ ⟨hstep, hpath⟩

/-- A block shows a name to what is in a slot unless it shadows the name there. -/
theorem shows_iff_not_shadows (hblock : g.blocks[b]? = some block) {s : SocketId} {slot : String}
    (hs : g.shape.site s = some (b, .input slot)) (hc : g.shape.guest s = some c) :
    g.shape.Shows name b c ↔ ¬ block.kind.shadows slot name := by
  have hp := shape_ports_eq_some.2 ⟨block, hblock, rfl⟩
  refine ⟨fun ⟨q, s', slot', hq, hs', hc', hfree⟩ => ?_,
    fun hfree => ⟨_, s, slot, hp, hs, hc, hfree⟩⟩
  obtain rfl := h.toWired.guest_unique hs hs' hc hc'
  cases hp.symm.trans hq
  cases hs.symm.trans hs'
  exact hfree

/-- The names that are bound around a variable in the term of a tree are those that are bound around
the term and those that do not reach the variable on the canvas. -/
theorem exists_occursUnder (hblock : g.blocks[c]? = some block)
    (hkind : block.kind = .variable name) {l : Lowered}
    (hout : ∀ block, g.blocks[b]? = some block → block.kind.hasOutput)
    (hl : g.lowerBlock fuel b = .ok l) (hc : g.shape.Below c b) (outer : List String) :
    ∃ scope, OccursUnder l.term outer c name scope ∧
      ∀ n, n ∈ scope ↔ n ∈ outer ∨ ¬ ReflTransGen (g.shape.Shows n) b c := by
  induction fuel generalizing b l outer with
  | zero => cases hl
  | succ fuel ih =>
      obtain ⟨root, hroot, hruns, part, hparts, rfl⟩ := lowerBlock_eq_ok.1 hl
      rcases ReflTransGen.cases_tail hc with rfl | ⟨d, hcd, hplug⟩
      · cases hroot.symm.trans hblock
        refine ⟨outer, ?_, fun n => ⟨.inl, fun hn => hn.resolve_right fun hnot => hnot .refl⟩⟩
        rw [hkind]
        simp [OccursUnder, BlockKind.assemble, Term.occurrences]
      · -- the tree below `d` is the one that the variable is in
        have hp := shape_ports_eq_some.2 ⟨root, hroot, rfl⟩
        obtain ⟨s, hs, hguest⟩ := (h.toWired.plugged_iff_input hp).1 hplug
        obtain ⟨slot, hs⟩ := (h.lists hp).input hs
        have hslot := hparts slot (h.mem_slots hp False.elim hs)
        rw [lowerSlot_eq_of_guest h.toWired hs hguest] at hslot
        have hlive := shape_ports_eq_some.2 ⟨block, hblock, rfl⟩
        obtain ⟨scope, hscope, hmem⟩ := ih (b := d) (fun block hblock =>
          h.hasOutput_of_plugged hplug (shape_ports_eq_some.2 ⟨block, hblock, rfl⟩)) hslot hcd
          (root.kind.bindsAt slot ++ outer)
        refine ⟨scope, List.perm_singleton.1 ?_, fun n => ?_⟩
        · refine (filter_occurrences_perm h hroot hruns hparts hs
            (under_of_below hguest hcd ⟨_, hlive⟩) outer).trans (.of_eq hscope)
        · rw [hmem, List.mem_append, BlockKind.mem_bindsAt_iff (hout root hroot)
            (h.sound hp).unrepeated, shows_iff h hplug hcd,
            shows_iff_not_shadows h hroot hs hguest]
          tauto

theorem childrenSeeing_eq (hblock : g.blocks[b]? = some block) (name : String) :
    g.childrenSeeing b name = .ok (block.inputs.filterMap fun s =>
      if (g.shape.slot s).any (block.kind.shadows · name) then none else g.shape.guest s) := by
  have hp := shape_ports_eq_some.2 ⟨block, hblock, rfl⟩
  refine bind_eq_ok.2 ⟨block, block_eq_ok.2 hblock, bind_eq_ok.2 ⟨_, mapM_eq_ok.2 ⟨fun s =>
    if (g.shape.slot s).any (block.kind.shadows · name) then none else g.shape.guest s, rfl,
      fun s hs => ?_⟩, ?_⟩⟩
  · obtain ⟨slot, hsite⟩ := (h.lists hp).input hs
    obtain ⟨socket, hsocket, -⟩ := shape_site_eq_some.1 hsite
    have hslot : g.shape.slot s = socket.slot? := by rw [shape_slot, hsocket]; rfl
    refine bind_eq_ok.2 ⟨socket, socket_eq_ok.2 hsocket, ?_⟩
    dsimp only
    rw [hslot]
    split
    · rfl
    · exact pluggedBlock_eq h.toWired hsite
  · rw [List.filterMap_map]
    rfl

/-- Nothing is plugged into two inputs. -/
theorem nodup_childrenSeeing {seeing : List BlockId}
    (hseeing : g.childrenSeeing b name = .ok seeing) : seeing.Nodup := by
  obtain ⟨block, hblock, -⟩ := bind_eq_ok.1 hseeing
  have hp := shape_ports_eq_some.2 ⟨block, block_eq_ok.1 hblock, rfl⟩
  cases (childrenSeeing_eq h (block_eq_ok.1 hblock) name).symm.trans hseeing
  refine List.pairwise_filterMap.2 (((h.lists hp).distinct.of_map _).pairwise_of_forall_ne
    fun s hs s' hs' hne c hc c' hc' heq => hne ?_)
  obtain ⟨slot, hsite⟩ := (h.lists hp).input hs
  obtain ⟨slot', hsite'⟩ := (h.lists hp).input hs'
  split at hc
  · cases hc
  · split at hc'
    · cases hc'
    · exact h.toWired.guest_unique hsite hsite' hc (heq ▸ hc')

/-- A search that goes deep enough ends, and it finds nothing twice. -/
theorem exists_usesWithin_eq (hfuel : g.Within fuel b) (hlive : g.shape.Live b) (name : String) :
    ∃ uses, g.usesWithin name fuel b = .ok uses ∧ uses.Nodup := by
  induction hfuel with
  | @intro fuel b children hchildren _ ih =>
      obtain ⟨p, hp⟩ := hlive
      obtain ⟨block, hblock, rfl⟩ := shape_ports_eq_some.1 hp
      obtain ⟨seeing, hseeing⟩ : ∃ seeing, g.childrenSeeing b name = .ok seeing :=
        ⟨_, childrenSeeing_eq h hblock name⟩
      have hplug : ∀ c ∈ seeing, g.shape.Plugged c b := fun c hc =>
        ((mem_childrenSeeing h.toWired hseeing).1 hc).plugged h.toWired
      have hsearch : ∀ c ∈ seeing.reverse,
          ∃ uses, g.usesWithin name fuel c = .ok uses ∧ uses.Nodup := fun c hc => by
        rw [List.mem_reverse] at hc
        exact ih c (mem_children_of_seeing hchildren hseeing hc)
          (h.toWired.ports_of_plugged (hplug c hc)).1
      choose! part hpart hnodup using hsearch
      refine ⟨_, bind_eq_ok.2 ⟨block, block_eq_ok.2 hblock, bind_eq_ok.2 ⟨seeing, hseeing,
        bind_eq_ok.2 ⟨_, mapM_eq_ok.2 ⟨part, rfl, hpart⟩, rfl⟩⟩⟩, ?_⟩
      have hbelow : ∀ c ∈ seeing.reverse, ∀ d ∈ part c, g.shape.Below d c := fun c hc d hd =>
        h.toWired.below_of_shows ((mem_usesWithin h.toWired (hpart c hc)).1 hd).1
      refine List.nodup_append.2 ⟨?_, List.nodup_flatten.2 ⟨?_, ?_⟩, ?_⟩
      · split
        · exact List.nodup_singleton b
        · exact List.nodup_nil
      · rintro _ hmem
        obtain ⟨c, hc, rfl⟩ := List.mem_map.1 hmem
        exact hnodup c hc
      · -- the trees of different children have no block in common
        rw [List.pairwise_map]
        refine (List.nodup_reverse.2 (nodup_childrenSeeing h hseeing)).pairwise_of_forall_ne
          fun c hc c' hc' hne d hd hd' => hne ?_
        exact h.toWired.eq_of_below h.acyclic (hbelow c hc d hd)
          (hplug c (List.mem_reverse.1 hc)) (hbelow c' hc' d hd')
          (hplug c' (List.mem_reverse.1 hc'))
      · rintro d hd _ hmem rfl
        obtain ⟨found, hfound, hdfound⟩ := List.mem_flatten.1 hmem
        obtain ⟨c, hc, rfl⟩ := List.mem_map.1 hfound
        split at hd
        · obtain rfl := List.mem_singleton.1 hd
          exact h.acyclic d (.tail' (hbelow c hc d hdfound) (hplug c (List.mem_reverse.1 hc)))
        · exact List.not_mem_nil hd

/-- The search from a function on finds the variables that no binder in the body captures. -/
theorem exists_scopesAgree {fname : String} {params : List String}
    (hblock : g.blocks[f]? = some block) (hkind : block.kind = .function fname params)
    (name : String) : ∃ uses body,
      g.usesOf f name = .ok uses ∧
      g.lowerSlot (g.lowerBlock g.depth) f Slot.result = .ok body ∧
      g.lower f = .ok ⟨block.kind.assemble (.block f) [body.term], body.holes⟩ ∧
      g.ScopesAgree f name uses body.term := by
  have hp := shape_ports_eq_some.2 ⟨block, hblock, rfl⟩
  obtain ⟨uses, huses, hnodup⟩ := exists_usesWithin_eq h
    (within_depth_of_acyclic h.toWired h.acyclic hp) ⟨_, hp⟩ name
  obtain ⟨l, hl, hdeep⟩ := exists_lower_of_isSome h hblock (hkind ▸ rfl)
  obtain ⟨block', hblock', hruns, part, hparts, rfl⟩ := lowerBlock_eq_ok.1 (lowerBlock_succ hdeep)
  cases hblock.symm.trans hblock'
  have hslots : block.kind.slots = [Slot.result] := hkind ▸ rfl
  have hbody := hparts Slot.result (hslots ▸ List.mem_singleton_self _)
  rw [hslots] at hl
  refine ⟨uses, part Slot.result, huses, hbody, hl.trans (by simp), hnodup, fun c hc => ?_,
    fun {c use} hc hvariable hname => ?_⟩
  · obtain ⟨hpath, hvariable⟩ := (mem_usesWithin h.toWired huses).1 hc
    exact ⟨h.toWired.below_of_shows hpath, hvariable⟩
  · rcases ReflTransGen.cases_tail hc with rfl | ⟨d, hcd, hplug⟩
    · cases hblock.symm.trans hvariable
      cases hkind.symm.trans hname
    · obtain ⟨s, hs, hguest⟩ := (h.toWired.plugged_iff_input hp).1 hplug
      obtain ⟨slot, hs⟩ := (h.lists hp).input hs
      obtain rfl := List.mem_singleton.1 (hslots ▸ h.mem_slots hp False.elim hs)
      rw [lowerSlot_eq_of_guest h.toWired hs hguest] at hbody
      obtain ⟨scope, hscope, hmem⟩ := exists_occursUnder h hvariable hname (fun block hblock =>
        h.hasOutput_of_plugged hplug (shape_ports_eq_some.2 ⟨block, hblock, rfl⟩)) hbody hcd []
      have hplain : ¬ block.kind.shadows Slot.result name := by rw [hkind]; exact Bool.false_ne_true
      refine ⟨scope, hscope, (mem_usesWithin h.toWired huses).trans ?_⟩
      rw [hmem, shows_iff h hplug hcd, shows_iff_not_shadows h hblock hs hguest]
      simp only [List.not_mem_nil, false_or, not_not]
      exact ⟨fun hfound => hfound.1.2, fun hpath => ⟨⟨hplain, hpath⟩, use, hvariable, hname⟩⟩

end

end Graph

namespace Workspace

variable {ws : Workspace} {f : BlockId} {block : Block} {fname : String} {params : List String}

/-- What uses a name from a function on, in a workspace that can be reached: the variables of that
name that are not under a binder of it in the term of what the function returns. -/
theorem Reachable.scopesAgree (h : ws.Reachable Command.AddsUnrepeated)
    (hblock : ws.main.blocks[f]? = some block) (hkind : block.kind = .function fname params)
    (name : String) : ∃ uses body,
      ws.main.usesOf f name = .ok uses ∧
      ws.main.lowerSlot (ws.main.lowerBlock ws.main.depth) f Slot.result = .ok body ∧
      ws.main.lower f = .ok ⟨block.kind.assemble (.block f) [body.term], body.holes⟩ ∧
      ws.main.ScopesAgree f name uses body.term :=
  Graph.exists_scopesAgree h.settled.1.1 hblock hkind name

set_option maxRecDepth 8000 in
/-- In `f x = let x = x in x` the first `x` is the parameter and the second one is not. -/
theorem scopesAgree_rebinding_let :
    let ws := [.add .main (.function "f" ["x"]), .add .main (.localLet "x"),
      .add .main (.variable "x"), .add .main (.variable "x"), .plug ⟨2⟩ ⟨1⟩ "VALUE",
      .plug ⟨3⟩ ⟨1⟩ "BODY", .plug ⟨1⟩ ⟨0⟩ "RETURN"].foldl after (ofSettings default)
    ∃ body, ws.main.lowerSlot (ws.main.lowerBlock ws.main.depth) ⟨0⟩ Slot.result = .ok body ∧
      ws.main.ScopesAgree ⟨0⟩ "x" [⟨2⟩] body.term := by
  intro ws
  have hreachable : ws.Reachable Command.AddsUnrepeated := (Reachable.start default).foldl
    (by simp [Command.AddsUnrepeated, BlockKind.Unrepeated])
  have huses : ws.main.usesOf ⟨0⟩ "x" = .ok [⟨2⟩] := by
    subst ws
    cbv
  have hfunctions : ws.functions = [(⟨0⟩, "f", ["x"])] := by
    subst ws
    cbv
  clear_value ws
  have hmem : (⟨0⟩, "f", ["x"]) ∈ ws.functions := by simp [hfunctions]
  obtain ⟨block, hblock, hkind⟩ := block_of_mem_functions hmem
  obtain ⟨uses, body, huses', hbody, -, hagree⟩ := hreachable.scopesAgree hblock hkind "x"
  cases huses.symm.trans huses'
  exact ⟨body, hbody, hagree⟩

end Workspace

end Plugboard
