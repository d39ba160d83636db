import Plugboard.Proofs.Coherence
import Plugboard.Proofs.Occurrences
import Plugboard.Proofs.UnboundedWalks

/-!
# Lowering a tree

Every tree on a regular canvas whose root stands for a term is lowered. A tag that is somewhere
below an input of a block occurs in the term of the block where it occurs in the part of that input.
-/

namespace Plugboard

open Relation Shape

/-- Of lists that are put together all but one are empty. -/
theorem flatMap_eq_of_forall_ne {α β : Type} {f : α → List β} {xs : List α} {x : α}
    (hxs : xs.Nodup) (hx : x ∈ xs) (hothers : ∀ y ∈ xs, y ≠ x → f y = []) :
    xs.flatMap f = f x := by
  induction xs with
  | nil => exact (List.not_mem_nil hx).elim
  | cons y ys ih =>
      rw [List.forall_mem_cons] at hothers
      obtain ⟨hy, hys⟩ := List.nodup_cons.1 hxs
      rw [List.flatMap_cons]
      rcases List.mem_cons.1 hx with rfl | hx
      · have hrest : ys.flatMap f = [] := List.flatMap_eq_nil_iff.2 fun z hz =>
          hothers.2 z hz fun heq => hy (heq ▸ hz)
        rw [hrest, List.append_nil]
      · rw [hothers.1 fun heq => hy (heq ▸ hx), List.nil_append, ih hys hx hothers.2]

theorem Term.TagsIn.imp {marked marked' : Tag → Prop} {e : Term} (h : e.TagsIn marked)
    (himp : ∀ tag, marked tag → marked' tag) : e.TagsIn marked' := by
  induction e with
  | var | lit => exact fun tag htag => himp tag (h tag htag)
  | app func arg tag ihf iha => exact ⟨fun t ht => himp t (h.1 t ht), ihf h.2.1, iha h.2.2⟩
  | lam param body tag ih => exact ⟨fun t ht => himp t (h.1 t ht), ih h.2⟩
  | letIn name bound body tag ihb ih =>
      exact ⟨fun t ht => himp t (h.1 t ht), ihb h.2.1, ih h.2.2⟩

theorem Term.TagsIn.marked {marked : Tag → Prop} {e : Term} (h : e.TagsIn marked)
    {scope : List String} {o : Occurrence} (ho : o ∈ e.occurrences scope) :
    Term.Marked marked o.tag := by
  induction e generalizing scope with
  | var name tag =>
      obtain rfl := List.mem_singleton.1 ho
      exact h
  | lit ty tag => exact (List.not_mem_nil ho).elim
  | app func arg tag ihf iha =>
      rcases List.mem_append.1 ho with ho | ho
      · exact ihf h.2.1 ho
      · exact iha h.2.2 ho
  | lam param body tag ih => exact ih h.2 ho
  | letIn name bound body tag ihb ih =>
      rcases List.mem_append.1 ho with ho | ho
      · exact ihb h.2.1 ho
      · exact ih h.2.2 ho

namespace BlockKind

theorem operands?_isSome_of_hasOutput {kind : BlockKind} (h : kind.hasOutput) :
    kind.operands?.isSome := by
  cases kind <;> first | rfl | cases h

end BlockKind

namespace Graph

variable {g : Graph} {b c : BlockId} {block : Block} {fuel : Nat}

theorem lowerSlot_eq_of_free (h : g.shape.Wired) {slot : String} {s : SocketId}
    (hs : g.shape.site s = some (b, .input slot)) (hfree : g.shape.guest s = none)
    (lowerChild : BlockId → Except Fault Lowered) :
    g.lowerSlot lowerChild b slot = .ok ⟨.var (holeName s) (some (.socket s)), [s]⟩ := by
  obtain ⟨p, hp⟩ := h.owner hs
  rw [lowerSlot, (inputNamed_eq_ok h hp).2 hs]
  change (g.pluggedBlock s >>= _) = _
  rw [pluggedBlock_eq h hs, hfree]
  rfl

theorem lowerSlot_eq_of_guest (h : g.shape.Wired) {slot : String} {s : SocketId}
    (hs : g.shape.site s = some (b, .input slot)) (hc : g.shape.guest s = some c)
    (lowerChild : BlockId → Except Fault Lowered) :
    g.lowerSlot lowerChild b slot = lowerChild c := by
  obtain ⟨p, hp⟩ := h.owner hs
  rw [lowerSlot, (inputNamed_eq_ok h hp).2 hs]
  change (g.pluggedBlock s >>= _) = _
  rw [pluggedBlock_eq h hs, hc]
  rfl

/-- A bound that is high enough may be raised. -/
theorem lowerBlock_succ {l : Lowered} (hl : g.lowerBlock fuel b = .ok l) :
    g.lowerBlock (fuel + 1) b = .ok l := by
  induction fuel generalizing b l with
  | zero => cases hl
  | succ fuel ih =>
      obtain ⟨block, hblock, hruns, part, hparts, rfl⟩ := lowerBlock_eq_ok.1 hl
      refine lowerBlock_eq_ok.2 ⟨block, hblock, hruns, part, fun slot hslot => ?_, rfl⟩
      obtain ⟨s, hs, hpart⟩ := bind_eq_ok.1 (hparts slot hslot)
      obtain ⟨child?, hchild?, hpart⟩ := bind_eq_ok.1 hpart
      refine bind_eq_ok.2 ⟨s, hs, bind_eq_ok.2 ⟨child?, hchild?, ?_⟩⟩
      cases child? with
      | none => exact hpart
      | some child => exact ih hpart

section

variable (h : g.shape.Regular ∅)

include h

theorem exists_lowerBlock_eq (hfuel : g.Within fuel b) (hblock : g.blocks[b]? = some block)
    (hruns : block.kind.operands?.isSome) : ∃ l, g.lowerBlock fuel b = .ok l := by
  induction hfuel generalizing block with
  | @intro fuel b children hchildren _ ih =>
      have hp := shape_ports_eq_some.2 ⟨block, hblock, rfl⟩
      have hslot : ∀ slot ∈ block.kind.slots,
          ∃ l, g.lowerSlot (g.lowerBlock fuel) b slot = .ok l := fun slot hslot => by
        obtain ⟨s, hs⟩ := h.exists_site hp False.elim hslot
        cases hguest : g.shape.guest s with
        | none => exact ⟨_, lowerSlot_eq_of_free h.toWired hs hguest _⟩
        | some c =>
            rw [lowerSlot_eq_of_guest h.toWired hs hguest]
            have hplug := h.toWired.plugged_of_guest hs hguest
            obtain ⟨q, hq⟩ := h.toWired.live_of_guest hguest
            obtain ⟨child, hchild, rfl⟩ := shape_ports_eq_some.1 hq
            refine ih c (mem_children_of_input hchildren (block_eq_ok.2 hblock)
              ((h.lists hp).mem_inputs.2 ⟨slot, hs⟩)
              ((pluggedBlock_eq h.toWired hs).trans (congrArg _ hguest))) hchild
              (BlockKind.operands?_isSome_of_hasOutput (h.hasOutput_of_plugged hplug hq))
      have : Nonempty Lowered := ⟨⟨default, []⟩⟩
      choose! part hpart using hslot
      exact ⟨_, lowerBlock_eq_ok.2 ⟨block, hblock, hruns, part, hpart, rfl⟩⟩

theorem exists_descend_eq {path done : BlockSet} (hlive : g.shape.Live b)
    (hpath : ∀ x ∈ path, TransGen g.shape.Plugged b x)
    (hfuel : (unseen g.world path).card < fuel) :
    ∃ done', g.descend fuel path done b = .ok done' := by
  induction fuel generalizing path done b with
  | zero => exact (Nat.not_lt_zero _ hfuel).elim
  | succ fuel ih =>
      rw [descend]
      by_cases hdone : done.contains b
      · exact ⟨done, if_pos hdone⟩
      · have hnew : b ∉ path := fun hmem => h.acyclic b (hpath b hmem)
        obtain ⟨p, hp⟩ := id hlive
        obtain ⟨children, hchildren, hmem⟩ := exists_children_eq h.toWired hp
        have hless := unseen_insert_lt (mem_world.2 ⟨p, hp⟩) hnew
        have hall : ∀ (cs : List BlockId) (done : BlockSet), (∀ c ∈ cs, g.shape.Plugged c b) →
            ∃ done', cs.foldlM (g.descend fuel (path.insert b)) done = .ok done' := by
          intro cs
          induction cs with
          | nil => exact fun done _ => ⟨done, rfl⟩
          | cons c cs ihs =>
              intro done hcs
              rw [List.forall_mem_cons] at hcs
              have hbelow : ∀ x ∈ path.insert b, TransGen g.shape.Plugged c x := fun x hx => by
                rcases mem_insert.1 hx with rfl | hx
                · exact .single hcs.1
                · exact (hpath x hx).head hcs.1
              obtain ⟨mid, hmid⟩ : ∃ mid, g.descend fuel (path.insert b) done c = .ok mid :=
                ih (h.toWired.ports_of_plugged hcs.1).1 hbelow (by omega)
              rw [List.foldlM_cons, hmid]
              exact ihs mid hcs.2
        obtain ⟨done', hdone'⟩ := hall children done fun c => (hmem c).1
        rw [if_neg hdone, if_neg fun hmem => hnew (Std.ExtTreeSet.mem_iff_contains.2 hmem),
          hchildren]
        refine ⟨done'.insert b, ?_⟩
        change (children.foldlM (g.descend fuel (path.insert b)) done >>= _) = _
        rw [hdone']
        rfl

/-- The tree of a block that stands for a term is lowered. -/
theorem exists_lower_of_isSome (hblock : g.blocks[b]? = some block)
    (hruns : block.kind.operands?.isSome) :
    ∃ l, g.lower b = .ok l ∧ g.lowerBlock g.depth b = .ok l := by
  have hp := shape_ports_eq_some.2 ⟨block, hblock, rfl⟩
  obtain ⟨l, hl⟩ := exists_lowerBlock_eq h (within_depth_of_acyclic h.toWired h.acyclic hp) hblock
    hruns
  obtain ⟨done, hdone⟩ := @exists_descend_eq g b _ h ∅ ∅ ⟨_, hp⟩
    (fun x hx => (Std.ExtTreeSet.not_mem_empty hx).elim) g.card_unseen_empty_lt
  refine ⟨l, ?_, hl⟩
  rw [lower, checkAcyclic, hdone]
  exact hl

theorem tagsIn_lowerSlot {slot : String} {s : SocketId} {l : Lowered}
    (hs : g.shape.site s = some (b, .input slot))
    (hl : g.lowerSlot (g.lowerBlock fuel) b slot = .ok l) :
    l.term.TagsIn (g.shape.Under s) := by
  cases hguest : g.shape.guest s with
  | none =>
      cases (lowerSlot_eq_of_free h.toWired hs hguest _).symm.trans hl
      exact fun tag htag => .inl ⟨hguest, (Option.mem_some.1 htag).symm⟩
  | some c =>
      rw [lowerSlot_eq_of_guest h.toWired hs hguest] at hl
      have htags := tagsIn_lowerBlock h.toWired (h.toWired.live_of_guest hguest) hl
      exact htags.imp fun tag hc => .inr ⟨c, hguest, hc⟩

/-- What is below an input occurs in the term of the block where it occurs in the part of that
input, under the names that the block binds there. -/
theorem filter_occurrences_perm (hblock : g.blocks[b]? = some block)
    (hruns : block.kind.operands?.isSome) {part : String → Lowered}
    (hparts : ∀ slot ∈ block.kind.slots, g.lowerSlot (g.lowerBlock fuel) b slot = .ok (part slot))
    {slot : String} {s : SocketId} (hs : g.shape.site s = some (b, .input slot)) {tag : Tag}
    (htag : g.shape.Under s tag) (scope : List String) :
    (((block.kind.assemble (.block b) (block.kind.slots.map fun slot =>
        (part slot).term)).occurrences scope).filter (·.tag = some tag)).Perm
      (((part slot).term.occurrences (block.kind.bindsAt slot ++ scope)).filter
        (·.tag = some tag)) := by
  have hp := shape_ports_eq_some.2 ⟨block, hblock, rfl⟩
  have hunrepeated := (h.sound hp).unrepeated
  have hne := h.toWired.under_ne_block h.acyclic hs htag
  have hown : ∀ o, block.kind.Own (.block b) o → ¬ decide (o.tag = some tag) := by
    rintro o ⟨-, ho | ho⟩ <;> simp [ho, Ne.symm hne]
  -- nothing with the tag is below another input of the block
  have hothers : ∀ slot' ∈ block.kind.slots, slot' ≠ slot →
      ((part slot').term.occurrences (block.kind.bindsAt slot' ++ scope)).filter
        (·.tag = some tag) = [] := fun slot' hslot' hslots => by
    obtain ⟨s', hs'⟩ := h.exists_site hp False.elim hslot'
    refine List.filter_eq_nil_iff.2 fun o ho htag' => ?_
    have hunder := (tagsIn_lowerSlot h hs' (hparts slot' hslot')).marked ho tag
      (of_decide_eq_true htag')
    obtain rfl := h.toWired.under_unique h.acyclic hs' hs hunder htag
    rw [hs] at hs'
    cases hs'
    exact hslots rfl
  have hadds := @BlockKind.adds_assemble (.block b) block.kind hruns hunrepeated
    (fun slot => (part slot).term) scope
  refine (hadds.filter_perm hown).trans (.of_eq ?_)
  rw [List.filter_flatMap, flatMap_eq_of_forall_ne hunrepeated.nodup_slots
    (h.mem_slots hp False.elim hs) hothers]

end

end Graph

end Plugboard
