import Plugboard.Proofs.Reshaping

/-!
# What is plugged into which slot

Sockets come and go when a block is made anew, and what is plugged in is told by its slot. For
each change of shape this says which slots are filled by what afterwards.
-/

namespace Plugboard.Shape

variable {sh sh' : Shape} {b c d : BlockId} {slot : String}

/-- The output of `c` is plugged into `b`, into the input that goes by the slot. -/
def PluggedAt (sh : Shape) (c b : BlockId) (slot : String) : Prop :=
  ∃ s d, sh.site s = some (c, .output) ∧ sh.peer s = some d ∧ sh.site d = some (b, .input slot)

theorem PluggedAt.plugged (h : sh.PluggedAt c b slot) : sh.Plugged c b :=
  let ⟨s, d, hs, hpeer, hd⟩ := h
  ⟨s, d, slot, hs, hpeer, hd⟩

/-- What fills a slot is at the other end of the one input that goes by it. -/
theorem Wired.pluggedAt_iff (h : sh.Wired) {s : SocketId} (hs : sh.site s = some (b, .input slot)) :
    sh.PluggedAt c b slot ↔ ∃ o, sh.peer s = some o ∧ sh.site o = some (c, .output) := by
  constructor
  · rintro ⟨o, d, ho, hpeer, hd⟩
    obtain ⟨p, hp⟩ := h.owner hs
    obtain rfl := (h.lists hp).input_unique hs hd
    exact ⟨o, h.symm hpeer, ho⟩
  · rintro ⟨o, hpeer, ho⟩
    exact ⟨o, s, ho, h.symm hpeer, hs⟩

/-- A block fills one slot at most. -/
theorem Wired.pluggedAt_unique (h : sh.Wired) {b' : BlockId} {slot' : String}
    (hplug : sh.PluggedAt c b slot) (hplug' : sh.PluggedAt c b' slot') : b = b' ∧ slot = slot' := by
  obtain ⟨o, d, ho, hpeer, hd⟩ := hplug
  obtain ⟨o', d', ho', hpeer', hd'⟩ := hplug'
  obtain ⟨p, hp⟩ := h.owner ho
  have hlists := h.lists hp
  cases (hlists.output_eq_some.2 ho).symm.trans (hlists.output_eq_some.2 ho')
  cases hpeer.symm.trans hpeer'
  cases hd.symm.trans hd'
  exact ⟨rfl, rfl⟩

theorem pluggedAt_join {o s : SocketId} (ho : sh.site o = some (d, .output))
    {b' : BlockId} {slot' : String} (hs : sh.site s = some (b', .input slot'))
    (hfreeO : sh.peer o = none) :
    (sh.join o s).PluggedAt c b slot ↔ sh.PluggedAt c b slot ∨ c = d ∧ b = b' ∧ slot = slot' := by
  have hos : o ≠ s := by
    rintro rfl
    cases ho.symm.trans hs
  constructor
  · rintro ⟨x, y, hx, hpeer, hy⟩
    simp only [join] at hx hpeer hy
    split_ifs at hpeer with hxs hxo
    · rw [hxs, hs] at hx
      cases hx
    · cases hpeer
      rw [hxo, ho] at hx
      rw [hs] at hy
      cases hx
      cases hy
      exact .inr ⟨rfl, rfl, rfl⟩
    · exact .inl ⟨x, y, hx, hpeer, hy⟩
  · rintro (⟨x, y, hx, hpeer, hy⟩ | ⟨rfl, rfl, rfl⟩)
    · have hxs : x ≠ s := by
        rintro rfl
        cases hx.symm.trans hs
      have hxo : x ≠ o := by
        rintro rfl
        cases hfreeO.symm.trans hpeer
      exact ⟨x, y, hx, (if_neg hxs).trans ((if_neg hxo).trans hpeer), hy⟩
    · exact ⟨o, s, ho, (if_neg hos).trans (if_pos rfl), hs⟩

/-- A block that is made anew keeps what fills the slots that it has still. -/
theorem Refit.pluggedAt_iff {p : Ports} {inputs : List SocketId} {slots : List String}
    (h : Refit b p inputs slots sh sh') (hsh : sh.Wired) :
    sh'.PluggedAt c d slot ↔ sh.PluggedAt c d slot ∧ (d = b → slot ∈ slots) := by
  constructor
  · rintro ⟨x, y, hx, hpeer, hy⟩
    have hold := (h.peer.1 hpeer).1
    obtain ⟨r, hr⟩ := hsh.site_of_peer hold
    obtain rfl := h.site_eq hsh hr hy
    refine ⟨⟨x, y, (h.elsewhere (.inr rfl)).1 hx, hold, hr⟩, ?_⟩
    rintro rfl
    obtain ⟨slot', hslot', hsite⟩ := h.seats.exists_slot (h.mem_inputs hy)
    cases hy.symm.trans hsite
    exact hslot'
  · rintro ⟨⟨x, y, hx, hpeer, hy⟩, hslot⟩
    have hx' : sh'.site x = some (c, .output) := (h.elsewhere (.inr rfl)).2 hx
    have hy' : sh'.site y = some (d, .input slot) := by
      by_cases hd : d = b
      · subst hd
        exact h.kept (hslot rfl) hy
      · exact (h.elsewhere (.inl hd)).2 hy
    exact ⟨x, y, hx', h.peer.2 ⟨hpeer, ⟨_, hx'⟩, ⟨_, hy'⟩⟩, hy'⟩

end Plugboard.Shape
