import Plugboard.Proofs.Reshaping
import Plugboard.Proofs.Slots

/-!
# Regular shapes

A regular shape is wired, has no cycle, and every block has the slots of its kind. While blocks
change their kinds, the slots of some may lag behind; these are loose. Functions are never
loose, for their one slot does not depend on their parameters.
-/

namespace Plugboard

/-- What a block's kind requires of a block, apart from its slots. -/
structure Ports.Sound (p : Ports) : Prop where
  unrepeated : p.kind.Unrepeated
  known : p.kind.Known
  output : p.output.isSome = p.kind.hasOutput

namespace Shape

structure Regular (loose : Set BlockId) (sh : Shape) : Prop extends sh.Wired where
  acyclic : sh.Acyclic
  sound : ∀ {b p}, sh.ports b = some p → p.Sound
  fits : ∀ {b p}, sh.ports b = some p → (b ∈ loose → p.kind.function?.isSome) →
    p.inputs.map sh.slot = p.kind.slots.map some

variable {sh sh' : Shape} {loose loose' : Set BlockId} {b : BlockId} {p : Ports}

theorem Lists.map_slot_eq (h : sh.Lists b p)
    (hsite : ∀ s role, sh.site s = some (b, role) → sh'.site s = some (b, role)) :
    p.inputs.map sh'.slot = p.inputs.map sh.slot := by
  refine List.map_congr_left fun s hs => ?_
  obtain ⟨slot, hs⟩ := h.input hs
  rw [Shape.slot, Shape.slot, hsite _ _ hs, hs]

namespace Regular

/-- Every slot of a block that is not loose has a socket. -/
theorem exists_site (h : sh.Regular loose) (hp : sh.ports b = some p)
    (hloose : b ∈ loose → p.kind.function?.isSome) {slot : String} (hslot : slot ∈ p.kind.slots) :
    ∃ s, sh.site s = some (b, .input slot) := by
  have hmem : some slot ∈ p.inputs.map sh.slot :=
    h.fits hp hloose ▸ List.mem_map_of_mem hslot
  obtain ⟨s, hs, hslot⟩ := List.mem_map.1 hmem
  obtain ⟨slot', hsite⟩ := (h.lists hp).input hs
  rw [Shape.slot, hsite] at hslot
  obtain rfl := Option.some.inj hslot
  exact ⟨s, hsite⟩

/-- An input of a block that is not loose is in one of its slots. -/
theorem mem_slots (h : sh.Regular loose) (hp : sh.ports b = some p)
    (hloose : b ∈ loose → p.kind.function?.isSome) {s : SocketId} {slot : String}
    (hs : sh.site s = some (b, .input slot)) : slot ∈ p.kind.slots := by
  have hslot : sh.slot s = some slot := by
    rw [Shape.slot, hs]
    rfl
  have hmem := List.mem_map_of_mem (f := sh.slot) ((h.lists hp).mem_inputs.2 ⟨slot, hs⟩)
  rw [h.fits hp hloose, hslot] at hmem
  obtain ⟨_, hmem, heq⟩ := List.mem_map.1 hmem
  exact Option.some.inj heq ▸ hmem

/-- A block that has an output is of a kind that has one. -/
theorem hasOutput_of_site (h : sh.Regular loose) (hp : sh.ports b = some p) {s : SocketId}
    (hs : sh.site s = some (b, .output)) : p.kind.hasOutput := by
  rw [← (h.sound hp).output, (h.lists hp).output_eq_some.2 hs]
  rfl

theorem hasOutput_of_plugged (h : sh.Regular loose) {c : BlockId} (hplug : sh.Plugged b c)
    (hp : sh.ports b = some p) : p.kind.hasOutput := by
  obtain ⟨o, -, -, ho, -⟩ := hplug
  exact h.hasOutput_of_site hp ho

/-- A block with an output is no function. -/
theorem function?_eq_none (h : sh.Regular loose) (hp : sh.ports b = some p) {s : SocketId}
    (hs : sh.site s = some (b, .output)) : p.kind.function? = none := by
  have hout := h.hasOutput_of_site hp hs
  cases hkind : p.kind with
  | function name params =>
      rw [hkind] at hout
      cases hout
  | _ => rfl

theorem mono (h : sh.Regular loose) (hsub : loose ⊆ loose') : sh.Regular loose' where
  toWired := h.toWired
  acyclic := h.acyclic
  sound := h.sound
  fits hp hloose := h.fits hp fun hb => hloose (hsub hb)

/-- The blocks that are left have the same sockets as before. -/
theorem of_wired (h : sh.Regular loose) (hwired : sh'.Wired) (hacyclic : sh'.Acyclic)
    (hports : ∀ {c q}, sh'.ports c = some q → sh.ports c = some q)
    (hsite : ∀ {s c role q}, sh'.ports c = some q → sh.site s = some (c, role) →
      sh'.site s = some (c, role)) : sh'.Regular loose where
  toWired := hwired
  acyclic := hacyclic
  sound hq := h.sound (hports hq)
  fits hq hloose :=
    ((h.lists (hports hq)).map_slot_eq fun _ _ => hsite hq).trans (h.fits (hports hq) hloose)

theorem cut (h : sh.Regular loose) (s : SocketId) : (sh.cut s).Regular loose :=
  h.of_wired (h.toWired.cut s) (h.acyclic.mono (plugged_cut h.toLinked)) id fun _ => id

theorem join (h : sh.Regular loose) {s d : SocketId} {c : BlockId} {slot : String}
    (hs : sh.site s = some (c, .output)) (hd : sh.site d = some (b, .input slot))
    (hfreeS : sh.peer s = none) (hfreeD : sh.peer d = none)
    (hacyclic : (sh.join s d).Acyclic) : (sh.join s d).Regular loose :=
  h.of_wired (h.toWired.join hs hd hfreeS hfreeD) hacyclic id fun _ => id

theorem remove (h : sh.Regular loose) (hp : sh.ports b = some p) :
    ((sh.drop p.sockets).setPorts b none).Regular loose := by
  have hports : ∀ {c q}, ((sh.drop p.sockets).setPorts b none).ports c = some q →
      c ≠ b ∧ sh.ports c = some q := by
    intro c q hq
    by_cases hc : c = b
    · cases (if_pos hc).symm.trans hq
    · exact ⟨hc, (if_neg hc).symm.trans hq⟩
  refine h.of_wired (h.toWired.remove hp) (h.acyclic.mono plugged_drop) (fun hq => (hports hq).2)
    fun {s c role q} hq hs => site_drop.2 ⟨hs, fun hmem => ?_⟩
  obtain ⟨role', hs'⟩ := ((h.lists hp).mem_iff s).1 hmem
  rw [hs] at hs'
  cases hs'
  exact (hports hq).1 rfl

/-- One block has new ports, and all others have the same sockets as before. -/
theorem of_ports (h : sh.Regular loose) (hwired : sh'.Wired) (hacyclic : sh'.Acyclic) {p : Ports}
    (hports : sh'.ports = (sh.setPorts b (some p)).ports) (hsound : p.Sound)
    (hsub : ∀ c ∈ loose, c ≠ b → c ∈ loose')
    (hsite : ∀ {s c role}, c ≠ b → sh.site s = some (c, role) → sh'.site s = some (c, role))
    (hfits : (b ∈ loose' → p.kind.function?.isSome) →
      p.inputs.map sh'.slot = p.kind.slots.map some) : sh'.Regular loose' := by
  have hcases : ∀ {c q}, sh'.ports c = some q → c = b ∧ q = p ∨ c ≠ b ∧ sh.ports c = some q := by
    intro c q hq
    rw [hports] at hq
    by_cases hc : c = b
    · exact .inl ⟨hc, (Option.some.inj ((if_pos hc).symm.trans hq)).symm⟩
    · exact .inr ⟨hc, (if_neg hc).symm.trans hq⟩
  refine ⟨hwired, hacyclic, fun {c q} hq => ?_, fun {c q} hq hloose => ?_⟩
  · rcases hcases hq with ⟨-, rfl⟩ | ⟨-, hq⟩
    · exact hsound
    · exact h.sound hq
  · rcases hcases hq with ⟨rfl, rfl⟩ | ⟨hc, hq⟩
    · exact hfits hloose
    · refine ((h.lists hq).map_slot_eq fun _ _ => hsite hc).trans (h.fits hq fun hmem => ?_)
      exact hloose (hsub c hmem hc)

/-- The kind of a block changes. It is loose afterwards unless its slots fit all the same. -/
theorem setKind (h : sh.Regular loose) (hsub : loose ⊆ loose') (hp : sh.ports b = some p)
    {kind : BlockKind} (hsound : Ports.Sound { p with kind })
    (hfits : (b ∈ loose' → kind.function?.isSome) →
      p.inputs.map sh.slot = kind.slots.map some) :
    (sh.setPorts b (some { p with kind })).Regular loose' :=
  h.of_ports (h.toWired.setKind hp kind) (h.acyclic.mono id) rfl hsound
    (fun _ hc _ => hsub hc) (fun _ => id) hfits

/-- Once its inputs are those of its kind, a block is not loose any more. -/
theorem refit (h : sh.Regular loose) (hp : sh.ports b = some p) {inputs : List SocketId}
    (hrefit : Refit b p inputs p.kind.slots sh sh') : sh'.Regular (loose \ {b}) := by
  have hwired := hrefit.wired h.toWired hp (h.sound hp).unrepeated.nodup_slots
  refine h.of_ports hwired (h.acyclic.mono (hrefit.plugged h.toWired)) hrefit.ports ?_
    (fun c hc hne => ⟨hc, hne⟩) (fun hc => (hrefit.elsewhere (.inl hc)).2)
    fun _ => hrefit.seats.map_slot
  exact ⟨(h.sound hp).unrepeated, (h.sound hp).known, (h.sound hp).output⟩

theorem added (h : sh.Regular loose) (hadded : Added b p p.kind.slots sh sh') (hsound : p.Sound) :
    sh'.Regular loose :=
  h.of_ports (hadded.wired h.toWired hsound.unrepeated.nodup_slots)
    (h.acyclic.mono (hadded.plugged h.toWired)) hadded.ports hsound (fun _ hc _ => hc)
    (fun hc => (hadded.site_of_ne h.bounded hc).2) fun _ => hadded.seats.map_slot

end Regular

theorem regular_empty : Graph.empty.shape.Regular ∅ := by
  have hports : ∀ b, Graph.empty.shape.ports b = none := fun b => by
    simp [Graph.shape, Graph.empty]
  have hsite : ∀ s, Graph.empty.shape.site s = none := fun s => by
    simp [Graph.shape, Graph.empty]
  have hpeer : ∀ s, Graph.empty.shape.peer s = none := fun s => by
    simp [Graph.shape, Graph.empty]
  have hplugged : ∀ c d, ¬ Graph.empty.shape.Plugged c d := by
    rintro c d ⟨s, t, slot, hs, -, -⟩
    rw [hsite] at hs
    cases hs
  have hacyclic : Graph.empty.shape.Acyclic := fun b hb => by
    obtain ⟨c, hc, -⟩ := Relation.TransGen.head'_iff.1 hb
    exact hplugged b c hc
  exact ⟨⟨⟨by simp [hpeer], by simp [hpeer]⟩, by simp [hports], by simp [hsite], by simp [hsite],
    by simp [hports]⟩, hacyclic, by simp [hports], by simp [hports]⟩

end Shape

end Plugboard
