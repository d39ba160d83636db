import Plugboard.Proofs.Wiring
import Plugboard.Workspace.Edit

/-!
# What refers to a name

A name means the same in a block and in what is plugged into it, unless the block binds the name
there. The variables of the name that see it from a block down are what refers to it.
-/

namespace Plugboard

open Relation

namespace Shape

variable {sh : Shape} {name : String} {b c d : BlockId}

/-- The second block is plugged into the first where a name still means what it does there. -/
def Shows (sh : Shape) (name : String) (b c : BlockId) : Prop :=
  ∃ p s slot, sh.ports b = some p ∧ sh.site s = some (b, .input slot) ∧ sh.guest s = some c ∧
    ¬ p.kind.shadows slot name

theorem Shows.plugged (hsh : sh.Wired) (h : sh.Shows name b c) : sh.Plugged c b := by
  obtain ⟨p, s, slot, -, hs, hguest, -⟩ := h
  exact hsh.plugged_of_guest hs hguest

theorem Wired.below_of_shows (hsh : sh.Wired) (h : ReflTransGen (sh.Shows name) b c) :
    sh.Below c b := by
  induction h with
  | refl => exact .refl
  | tail _ hshows ih => exact ih.head (hshows.plugged hsh)

/-- What is below a block that does not see the name does not see it either. -/
theorem Wired.shows_of_below (hsh : sh.Wired) (hacyclic : sh.Acyclic) {x : BlockId}
    (hx : ReflTransGen (sh.Shows name) b x) (hc : ReflTransGen (sh.Shows name) b c)
    (hplug : sh.Plugged d c) (hbelow : sh.Below x d) : sh.Shows name c d := by
  induction hx with
  | refl =>
      exact (hacyclic b ((TransGen.tail' hbelow hplug).trans_left (hsh.below_of_shows hc))).elim
  | @tail y x _ hshows ih =>
      rcases ReflTransGen.cases_head hbelow with rfl | ⟨z, hz, hbelow⟩
      · exact hsh.plugged_unique (hshows.plugged hsh) hplug ▸ hshows
      · exact ih (hsh.plugged_unique (hshows.plugged hsh) hz ▸ hbelow)

end Shape

namespace Graph

variable {g : Graph} {b c : BlockId} {name : String} (h : g.shape.Wired)

include h

/-- The blocks that see the name are plugged in where nothing rebinds it. -/
theorem mem_childrenSeeing {children : List BlockId}
    (hchildren : g.childrenSeeing b name = .ok children) :
    c ∈ children ↔ g.shape.Shows name b c := by
  obtain ⟨block, hblock, hchildren⟩ := bind_eq_ok.1 hchildren
  obtain ⟨plugged, hplugged, heq⟩ := bind_eq_ok.1 hchildren
  cases heq
  have hp := shape_ports_eq_some.2 ⟨block, block_eq_ok.1 hblock, rfl⟩
  obtain ⟨part, rfl, hpart⟩ := mapM_eq_ok.1 hplugged
  have hanswer : ∀ {s slot}, s ∈ block.inputs → g.shape.site s = some (b, .input slot) →
      part s = if block.kind.shadows slot name then none else g.shape.guest s := by
    intro s slot hs hsite
    obtain ⟨socket, hsocket, hrole⟩ := shape_site_eq_some.1 hsite
    have hslot : socket.slot? = some slot := by
      have hslot := shape_slot (g := g) s
      rw [Shape.slot, hsite, hsocket] at hslot
      exact hslot.symm
    have hrun := hpart s hs
    rw [socket_eq_ok.2 hsocket] at hrun
    change (if socket.slot?.any _ then _ else g.pluggedBlock s) = _ at hrun
    rw [hslot, Option.any_some, pluggedBlock_eq h hsite] at hrun
    split
    · rename_i hshadows
      rw [if_pos hshadows] at hrun
      exact (Except.ok.inj hrun).symm
    · rename_i hshadows
      rw [if_neg hshadows] at hrun
      exact (Except.ok.inj hrun).symm
  rw [List.mem_filterMap]
  constructor
  · rintro ⟨child?, hmem, rfl⟩
    obtain ⟨s, hs, heq⟩ := List.mem_map.1 hmem
    obtain ⟨slot, hsite⟩ := (h.lists hp).input hs
    rw [hanswer hs hsite] at heq
    split at heq
    · cases heq
    · rename_i hshadows
      exact ⟨_, s, slot, hp, hsite, heq, hshadows⟩
  · rintro ⟨q, s, slot, hq, hsite, hguest, hshadows⟩
    cases hp.symm.trans hq
    have hs := (h.lists hp).mem_inputs.2 ⟨slot, hsite⟩
    refine ⟨some c, List.mem_map.2 ⟨s, hs, ?_⟩, rfl⟩
    rw [hanswer hs hsite, if_neg hshadows, hguest]

/-- What is renamed are the variables that see the name. -/
theorem mem_usesWithin {fuel : Nat} {uses : List BlockId}
    (huses : g.usesWithin name fuel b = .ok uses) :
    c ∈ uses ↔ ReflTransGen (g.shape.Shows name) b c ∧
      ∃ block, g.blocks[c]? = some block ∧ block.kind = .variable name := by
  induction fuel generalizing b uses with
  | zero => cases huses
  | succ fuel ih =>
      obtain ⟨block, hblock, huses⟩ := bind_eq_ok.1 huses
      obtain ⟨children, hchildren, huses⟩ := bind_eq_ok.1 huses
      obtain ⟨below, hbelow, heq⟩ := bind_eq_ok.1 huses
      cases heq
      obtain ⟨part, rfl, hpart⟩ := mapM_eq_ok.1 hbelow
      rw [List.mem_append, List.mem_flatten]
      constructor
      · rintro (hhere | ⟨found, hfound, hc⟩)
        · split at hhere
          · rename_i hkind
            obtain rfl := List.mem_singleton.1 hhere
            exact ⟨.refl, block, block_eq_ok.1 hblock, hkind⟩
          · exact (List.not_mem_nil hhere).elim
        · obtain ⟨child, hchild, rfl⟩ := List.mem_map.1 hfound
          obtain ⟨hpath, hvariable⟩ := (ih (hpart child hchild)).1 hc
          have hshows := (mem_childrenSeeing h hchildren).1 (List.mem_reverse.1 hchild)
          exact ⟨hpath.head hshows, hvariable⟩
      · rintro ⟨hpath, hvariable⟩
        rcases ReflTransGen.cases_head hpath with rfl | ⟨child, hshows, hpath⟩
        · obtain ⟨block', hblock', hkind⟩ := hvariable
          cases (block_eq_ok.1 hblock).symm.trans hblock'
          exact .inl (by rw [if_pos hkind]; exact List.mem_singleton_self _)
        · have hchild := List.mem_reverse.2 ((mem_childrenSeeing h hchildren).2 hshows)
          exact .inr ⟨part child, List.mem_map_of_mem hchild,
            (ih (hpart child hchild)).2 ⟨hpath, hvariable⟩⟩

end Graph

end Plugboard
