import Plugboard.Proofs.Settling

/-!
# Renewal in place

A block that has the slots of its kind keeps all its sockets when they are made anew. They get the
types of a new layout, and nothing else on the canvas changes.
-/

namespace Plugboard

namespace Graph

variable {g g' : Graph} {b : BlockId}

/-- In `g'` the types on `b` are those of a layout, and all else is as in `g`. -/
structure Renewed (b : BlockId) (layout : Layout) (g g' : Graph) : Prop where
  shape : g'.shape = g.shape
  here : ∀ {P : Ty → Prop} {place : Place} {t : Ty}, layout.Every P → g.shape.Hosts b place →
    g'.keptAt place = some t → P t
  elsewhere : ∀ {c : BlockId} {place : Place}, c ≠ b → g.shape.Hosts c place →
    g'.keptAt place = g.keptAt place

/-- Types for sockets, in order. -/
def onSockets (ss : List SocketId) (ts : List Ty) : List (Place × Ty) :=
  ss.zipWith (fun s t => (.socket s, t)) ts

theorem exists_of_mem_onSockets {ss : List SocketId} {ts : List Ty} {p : Place × Ty}
    (h : p ∈ onSockets ss ts) : (∃ s ∈ ss, p.1 = .socket s) ∧ p.2 ∈ ts := by
  rw [onSockets, ← List.map_uncurry_zip_eq_zipWith] at h
  obtain ⟨entry, hentry, rfl⟩ := List.mem_map.1 h
  obtain ⟨hs, ht⟩ := List.of_mem_zip hentry
  exact ⟨⟨entry.1, hs, rfl⟩, ht⟩

theorem exists_mem_onSockets {ss : List SocketId} {ts : List Ty} (h : ss.length = ts.length)
    {s : SocketId} (hs : s ∈ ss) : ∃ t, (.socket s, t) ∈ onSockets ss ts := by
  obtain ⟨i, hi, rfl⟩ := List.getElem_of_mem hs
  refine ⟨ts[i], List.mem_iff_getElem.2 ⟨i, ?_, List.getElem_zipWith⟩⟩
  rw [onSockets, List.length_zipWith, ← h, min_self]
  exact hi

theorem keepAll_append (placed placed' : List (Place × Ty)) :
    g.keepAll (placed ++ placed') = (g.keepAll placed).keepAll placed' :=
  List.foldl_append

theorem blocks_keepAll_onSockets (ss : List SocketId) (ts : List Ty) :
    (g.keepAll (onSockets ss ts)).blocks = g.blocks := by
  induction ss generalizing g ts with
  | nil => rfl
  | cons s ss ih =>
      cases ts with
      | nil => rfl
      | cons t ts => exact ih (g := g.keep t (.socket s)) ts

/-- All sockets of a block get types, and its type parameters are replaced. -/
theorem renewed_keepAll (h : g.shape.Wired) {block : Block} (hblock : g.blocks[b]? = some block)
    {layout : Layout} (hins : block.inputs.length = layout.inputs.length)
    (hout : layout.output.isSome = block.output.isSome) {f : Block → Block}
    (hf : f block = { block with params := layout.params }) :
    Renewed b layout g (((g.keepAll (onSockets block.inputs (layout.inputs.map (·.2)))).keepAll
      (onSockets block.output.toList layout.output.toList)).modifyBlock b f) := by
  have hp : g.shape.ports b = some ⟨block.kind, block.output, block.inputs⟩ :=
    shape_ports_eq_some.2 ⟨block, hblock, rfl⟩
  have hlists := h.lists hp
  have hblocks : ((g.keepAll (onSockets block.inputs (layout.inputs.map (·.2)))).keepAll
      (onSockets block.output.toList layout.output.toList)).blocks = g.blocks := by
    rw [blocks_keepAll_onSockets, blocks_keepAll_onSockets]
  rw [← keepAll_append] at hblocks ⊢
  generalize hplaced : onSockets block.inputs (layout.inputs.map (·.2)) ++
    onSockets block.output.toList layout.output.toList = placed at hblocks ⊢
  have hmem : ∀ p ∈ placed, ∃ s role, p.1 = .socket s ∧ g.shape.site s = some (b, role) := by
    intro p hp'
    rw [← hplaced] at hp'
    rcases List.mem_append.1 hp' with hp' | hp'
    · obtain ⟨⟨s, hs, hplace⟩, -⟩ := exists_of_mem_onSockets hp'
      obtain ⟨slot, hsite⟩ := hlists.input hs
      exact ⟨s, _, hplace, hsite⟩
    · obtain ⟨⟨s, hs, hplace⟩, -⟩ := exists_of_mem_onSockets hp'
      exact ⟨s, _, hplace, hlists.output (Option.mem_toList.1 hs)⟩
  have hlenIn : block.inputs.length = (layout.inputs.map (·.2)).length :=
    hins.trans (List.length_map _).symm
  have hlenOut : block.output.toList.length = layout.output.toList.length := by
    rw [Option.length_toList, Option.length_toList, hout]
  have hhosts : ∀ p ∈ placed, ∃ b, g.shape.Hosts b p.1 := by
    intro p hp'
    obtain ⟨s, role, hplace, hsite⟩ := hmem p hp'
    exact ⟨b, hplace ▸ ⟨role, hsite⟩⟩
  have hkept := keptAt_keepAll hhosts
  generalize hg : g.keepAll placed = g' at hblocks hkept ⊢
  have hshape : g'.shape = g.shape := hg ▸ shape_keepAll placed
  have hblock' : g'.blocks[b]? = some block := hblocks ▸ hblock
  constructor
  · rw [shape_modifyBlock_ports hblock', hf, hshape]
    ext x y
    · by_cases hx : x = b
      · rw [hx, hp]
        exact iff_of_eq (congrArg (· = some y) (if_pos rfl))
      · exact iff_of_eq (congrArg (· = some y) (if_neg hx))
    all_goals rfl
  · intro P place t hP hb ht
    cases place with
    | socket s =>
        obtain ⟨role, hs⟩ := hb
        rw [show (g'.modifyBlock b f).keptAt (.socket s) = g'.keptAt (.socket s) from rfl,
          hkept] at ht
        rcases mem_or_of_foldl_kept ht with hput | ⟨-, hnone⟩
        · rw [← hplaced] at hput
          rcases List.mem_append.1 hput with hput | hput
          · obtain ⟨input, hinput, rfl⟩ : ∃ input ∈ layout.inputs, input.2 = t :=
              List.mem_map.1 (exists_of_mem_onSockets hput).2
            exact hP.inputs input hinput
          · exact hP.output t (Option.mem_toList.1 (exists_of_mem_onSockets hput).2)
        · obtain ⟨t', ht'⟩ : ∃ t, (.socket s, t) ∈ placed := by
            rw [← hplaced]
            rcases List.mem_append.1 ((hlists.mem_iff s).2 ⟨role, hs⟩) with hs | hs
            · obtain ⟨t, ht⟩ := exists_mem_onSockets hlenOut hs
              exact ⟨t, List.mem_append_right _ ht⟩
            · obtain ⟨t, ht⟩ := exists_mem_onSockets hlenIn hs
              exact ⟨t, List.mem_append_left _ ht⟩
          exact (hnone _ ht' rfl).elim
    | param c name =>
        obtain ⟨rfl, -⟩ := hb
        refine hP.params name t ?_
        simpa only [keptAt, paramAt, getElem?_modifyBlock, if_true, hblock', Option.map_some,
          Option.bind_some, hf] using ht
  · intro c place hc hb
    cases place with
    | socket s =>
        obtain ⟨role, hs⟩ := hb
        refine (hkept (.socket s)).trans (foldl_kept_of_forall_ne fun p hp' hsame => hc ?_)
        obtain ⟨s', role', hplace, hsite⟩ := hmem p hp'
        cases hplace.symm.trans hsame
        exact (Prod.mk.inj (Option.some.inj (hs.symm.trans hsite))).1
    | param d name =>
        obtain ⟨rfl, -⟩ := hb
        simp only [keptAt, paramAt, getElem?_modifyBlock, if_neg (Ne.symm hc), hblocks]

end Graph

namespace GraphM

open Plugboard.Graph

variable {g : Graph} {b : BlockId}

/-- Inputs of the same slots get the types of a layout. -/
theorem ends_reuseInputs_seated {old : Std.ExtTreeMap String SocketId}
    {ins : List (String × Ty)} {ss : List SocketId} (hseats : g.shape.Seats b ss (ins.map (·.1)))
    (hnodup : (ins.map (·.1)).Nodup)
    (hold : ∀ slot s, old[slot]? = some s ↔ s ∈ ss ∧ g.shape.site s = some (b, .input slot)) :
    Ends (reuseInputs b old ins) g (fun r g' => r.1 = ss ∧ r.2.values = [] ∧
      g' = g.keepAll (onSockets ss (ins.map (·.2)))) fun _ => False := by
  induction ins generalizing g old ss with
  | nil =>
      obtain rfl : ss = [] := List.map_eq_nil_iff.1 hseats
      refine ⟨rfl, List.eq_nil_iff_forall_not_mem.2 fun s hs => ?_, rfl⟩
      obtain ⟨slot, hslot⟩ := mem_values_iff.1 hs
      exact List.not_mem_nil ((hold slot s).1 hslot).1
  | cons input ins ih =>
      obtain ⟨slot, ty⟩ := input
      rw [List.map_cons, List.nodup_cons] at hnodup
      obtain ⟨s, ss, rfl, hs, hseats⟩ := List.map_eq_cons_iff.1 hseats
      have hget : old[slot]? = some s := (hold slot s).2 ⟨List.mem_cons_self, hs⟩
      -- the rest of the inputs go by other slots
      have hrest : ∀ slot' x, (old.erase slot)[slot']? = some x ↔
          x ∈ ss ∧ g.shape.site x = some (b, .input slot') := by
        intro slot' x
        rw [Std.ExtTreeMap.getElem?_erase]
        split
        · rename_i hslot
          obtain rfl := Std.LawfulEqCmp.eq_of_compare hslot
          refine iff_of_false (by simp) fun hx => ?_
          obtain ⟨slot', hslot', hsite⟩ := Shape.Seats.exists_slot hseats hx.1
          rw [hx.2] at hsite
          cases hsite
          exact hnodup.1 hslot'
        · rename_i hslot
          rw [hold, List.mem_cons]
          refine and_congr_left fun hsite => or_iff_right ?_
          rintro rfl
          rw [hs] at hsite
          cases hsite
          simp at hslot
      have hshape : (g.keep ty (.socket s)).shape = g.shape := shape_keep ty _
      rw [reuseInputs, hget]
      simp only [setTy, ends_bind]
      refine (ends_updateSocket hs _).imp (fun _ g' hg' => ?_) fun _ => id
      subst hg'
      refine (ih (g := g.keep ty (.socket s)) (hshape ▸ hseats) hnodup.2 (hshape ▸ hrest)).imp
        (fun r g' hr => ?_) fun _ => id
      exact ⟨congrArg (s :: ·) hr.1, hr.2.1, hr.2.2⟩

theorem ends_replaceOutput_seated {output : Option SocketId} {ty : Option Ty}
    (hlive : ∀ s, output = some s → ∃ r, g.shape.site s = some r)
    (hout : ty.isSome = output.isSome) :
    Ends (replaceOutput b output ty) g (fun r g' => r = (output, []) ∧
      g' = g.keepAll (onSockets output.toList ty.toList)) fun _ => False := by
  cases output with
  | none =>
      cases ty with
      | none => exact ⟨rfl, rfl⟩
      | some ty => cases hout
  | some s =>
      cases ty with
      | none => cases hout
      | some ty =>
          obtain ⟨r, hr⟩ := hlive s rfl
          rw [replaceOutput, ends_bind]
          exact (ends_updateSocket hr _).imp (fun _ g' hg' => ⟨rfl, hg'⟩) fun _ => id

/-- A block that has the slots of a layout already keeps its sockets. -/
theorem ends_replaceSockets_seated (h : g.shape.Wired) {p : Ports}
    (hp : g.shape.ports b = some p) {layout : Layout}
    (hseats : g.shape.Seats b p.inputs (layout.inputs.map (·.1)))
    (hnodup : (layout.inputs.map (·.1)).Nodup)
    (hout : layout.output.isSome = p.output.isSome) :
    Ends (replaceSockets b layout) g (fun detached g' => detached = [] ∧ Renewed b layout g g')
      fun _ => False := by
  obtain ⟨block, hblock, rfl⟩ := shape_ports_eq_some.1 hp
  have hlists := h.lists hp
  rw [replaceSockets]
  simp only [ends_bind, ends_ask, Graph.block, hblock]
  refine (ends_inputsBySlot (b := b) (fun s => hlists.input) hlists.distinct).imp
    (fun old g' hread => ?_) fun _ => id
  obtain ⟨rfl, hold⟩ := hread
  refine (ends_reuseInputs_seated hseats hnodup hold).imp (fun r g₁ hreused => ?_) fun _ => id
  obtain ⟨hr, hleft, hg₁⟩ := hreused
  rw [hleft]
  refine ends_pure.2 ?_
  have houtput : ∀ s, block.output = some s → ∃ r, g₁.shape.site s = some r := fun s hs =>
    ⟨_, hg₁ ▸ (shape_keepAll _).symm ▸ hlists.output hs⟩
  refine (ends_replaceOutput_seated houtput hout).imp (fun r' g₂ hreplaced => ?_) fun _ => id
  obtain ⟨hr', hg₂⟩ := hreplaced
  have hblock₂ : g₂.blocks[b]? = some block := by
    rw [hg₂, blocks_keepAll_onSockets, hg₁, blocks_keepAll_onSockets, hblock]
  have hlen : block.inputs.length = layout.inputs.length := by
    simpa using congrArg List.length hseats
  simp only [updateBlock, ends_bind, ends_ask, Graph.block, hblock₂, ends_modify, ends_pure, hr']
  refine ⟨rfl, ?_⟩
  rw [hg₂, hg₁]
  refine renewed_keepAll h hblock hlen hout ?_
  exact congrArg (fun inputs => { block with inputs, params := layout.params }) hr

end GraphM

namespace WorkspaceM

open Workspace

variable {sh flyout : Shape} (hsh : sh.Regular ∅)

include hsh

/-- Blocks that have the slots of their kinds stay as they are when they are made anew. -/
theorem completes_renew {b : BlockId} (hb : sh.Live b) :
    Completes (OfShape sh flyout) (renew b) := by
  intro ws hws
  obtain ⟨⟨rfl, rfl⟩, htyped, hflyout⟩ := hws
  obtain ⟨p, hp⟩ := hb
  obtain ⟨block, hblock, rfl⟩ := Graph.shape_ports_eq_some.1 hp
  have hsound := hsh.sound hp
  rw [renew, ends_bind, ends_ask, Graph.block_eq_ok.2 hblock]
  dsimp only
  rw [ends_bind]
  refine (ends_layoutFor ws block.kind).imp (fun layout ws' hended => ?_) fun ws' hfail =>
    hfail.2 ⟨hsound.known, exists_functionScheme?_eq hsh⟩
  obtain ⟨hfits, -, pool, rfl⟩ := hended
  have hseats := (hsh.lists hp).seats (hsh.fits hp False.elim)
  rw [ends_onMain]
  refine ((GraphM.ends_replaceSockets_seated hsh.toWired hp (hfits.slots ▸ hseats)
    (hfits.slots ▸ hsound.unrepeated.nodup_slots) (hfits.output.trans hsound.output.symm)).and
    (GraphM.every_replaceSockets b layout.every_true ws.main htyped)).imp
    (fun _ g hg => ?_) fun _ => And.left
  exact ⟨⟨hg.1.2.shape, rfl⟩, hg.2, hflyout⟩

theorem completes_reset {members : BlockSet} (hlive : ∀ b ∈ members, sh.Live b) :
    Completes (OfShape sh flyout) (reset members) := by
  have hrenew : Completes (OfShape sh flyout) (members.toList.mapM renew) :=
    .mapM fun b hb => completes_renew hsh (hlive b (Std.ExtTreeSet.mem_toList.1 hb))
  refine .bind hrenew fun detached ws hws => ?_
  obtain ⟨⟨rfl, rfl⟩, htyped, hflyout⟩ := hws
  rw [ends_bind, ends_ask, Graph.linkAgreement_linksWithin_eq hsh.toLinked]
  dsimp only
  rw [ends_bind, ends_onMain, ends_modify]
  exact ⟨⟨Graph.shape_applyTo (g := ws.main) _ members, rfl⟩,
    htyped.applyTo (fun _ _ => trivial) members, hflyout⟩

/-- What is finished is not rewired. -/
theorem completes_finishEdit (touched : List BlockId) :
    Completes (OfShape sh flyout) (finishEdit touched) := by
  have hcomponents : ∀ (blocks : List BlockId) (ws : Workspace), OfShape sh flyout ws →
      Ends (componentsOf blocks) ws (fun found ws' => (∀ b ∈ found, sh.Live b) ∧
        OfShape sh flyout ws') fun _ => False := by
    intro blocks ws hws
    obtain ⟨⟨rfl, -⟩, -⟩ := id hws
    exact (ends_componentsOf hsh.toWired blocks).imp (fun _ ws' h => ⟨h.2.1, h.1 ▸ hws⟩) fun _ => id
  have hrest : Completes (OfShape sh flyout) (do
      let report ← infer
      requestSweep
      return report) :=
    .bind ((Steady.of_shape hsh).completes_infer hsh) fun _ => .bind (fun _ => id) fun _ => .pure _
  intro ws hws
  rw [finishEdit, ends_bind]
  refine (hcomponents touched ws hws).imp (fun members ws₁ h₁ => ?_) fun _ => id
  rw [ends_bind]
  refine (completes_reset hsh h₁.1 ws₁ h₁.2).imp (fun detached ws₂ hws₂ => ?_) fun _ => id
  rw [ends_bind]
  refine (hcomponents detached ws₂ hws₂).imp (fun found ws₃ h₃ => ?_) fun _ => id
  dsimp only
  split
  · rw [ends_bind]
    exact (completes_reset hsh (fun b hb => h₃.1 b (Std.ExtTreeSet.mem_diff_iff.1 hb).1) ws₃
      h₃.2).imp (fun _ ws₄ hws₄ => hrest ws₄ hws₄) fun _ => id
  · exact hrest ws₃ h₃.2

end WorkspaceM

end Plugboard
