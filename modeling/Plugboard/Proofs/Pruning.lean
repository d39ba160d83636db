import Plugboard.Proofs.Regularity

/-!
# What making blocks anew leaves in place

Any number of blocks may be made anew, each with the slots of its kind. Kinds and outputs stay, an
input stays if its slot is one of its block's kind, and a link stays if both of its ends do. This
is a preorder on wired shapes, so it is enough to see it of one block.
-/

namespace Plugboard.Shape

variable {sh sh' sh'' : Shape} {loose : Set BlockId}

/-- Inputs of `sh` may be missing from `sh'` where the kind of their block has no slot for them, and
there may be new ones. Nothing else differs but the order of inputs. -/
structure Pruned (sh sh' : Shape) : Prop where
  kinds : ∀ b, (sh'.ports b).map (·.kind) = (sh.ports b).map (·.kind)
  le : sh.nextSocket ≤ sh'.nextSocket
  output : ∀ {s b}, sh'.site s = some (b, .output) ↔ sh.site s = some (b, .output)
  old_or_new : ∀ {s b slot}, sh'.site s = some (b, .input slot) →
    sh.site s = some (b, .input slot) ∨ sh.nextSocket ≤ s.index
  kept : ∀ {s b slot p}, sh.ports b = some p → slot ∈ p.kind.slots →
    sh.site s = some (b, .input slot) → sh'.site s = some (b, .input slot)
  peer : ∀ {s d}, sh'.peer s = some d ↔
    sh.peer s = some d ∧ (∃ r, sh'.site s = some r) ∧ ∃ r, sh'.site d = some r

namespace Pruned

theorem refl (h : sh.Linked) : Pruned sh sh where
  kinds _ := rfl
  le := le_rfl
  output := Iff.rfl
  old_or_new := .inl
  kept _ _ := id
  peer := (and_iff_left_of_imp fun hd => ⟨h.site_of_peer (h.symm hd), h.site_of_peer hd⟩).symm

/-- A socket that was there before and is there still is what it was. -/
theorem site_eq (h : Pruned sh sh') (hsh : sh.Bounded) {s : SocketId} {r r' : BlockId × Role}
    (hs : sh.site s = some r) (hs' : sh'.site s = some r') : r' = r := by
  obtain ⟨b, role⟩ := r'
  have hold : sh.site s = some (b, role) := by
    cases role with
    | output => exact h.output.1 hs'
    | input slot =>
        exact (h.old_or_new hs').resolve_right fun hnew =>
          absurd (hsh s r hs) (Nat.not_lt.2 hnew)
  exact Option.some.inj (hold.symm.trans hs)

theorem live_iff (h : Pruned sh sh') {b : BlockId} :
    (∃ p, sh'.ports b = some p) ↔ ∃ p, sh.ports b = some p := by
  simp only [← Option.isSome_iff_exists, ← Option.isSome_map (f := Ports.kind), h.kinds]

theorem exists_ports (h : Pruned sh sh') {b : BlockId} {p : Ports} (hp : sh.ports b = some p) :
    ∃ p', sh'.ports b = some p' ∧ p'.kind = p.kind := by
  obtain ⟨p', hp'⟩ := h.live_iff.2 ⟨p, hp⟩
  have hkind := h.kinds b
  rw [hp, hp'] at hkind
  exact ⟨p', hp', Option.some.inj hkind⟩

theorem trans (h : Pruned sh sh') (h' : Pruned sh' sh'') (hsh : sh.Wired) : Pruned sh sh'' where
  kinds b := (h'.kinds b).trans (h.kinds b)
  le := h.le.trans h'.le
  output := h'.output.trans h.output
  old_or_new hs := (h'.old_or_new hs).elim h.old_or_new fun hnew => .inr (h.le.trans hnew)
  kept hp hslot hs := by
    obtain ⟨p', hp', hkind⟩ := h.exists_ports hp
    exact h'.kept hp' (hkind ▸ hslot) (h.kept hp hslot hs)
  peer {s d} := by
    -- what is there both before and after was there in between as well
    have hbetween : ∀ {x r r''}, sh.site x = some r → sh''.site x = some r'' →
        ∃ r', sh'.site x = some r' := by
      intro x r r'' hr hr''
      obtain ⟨b, role⟩ := r''
      cases role with
      | output => exact ⟨_, h'.output.1 hr''⟩
      | input slot =>
          refine ⟨_, (h'.old_or_new hr'').resolve_right fun hnew => ?_⟩
          exact absurd (hsh.socket_lt hr) (Nat.not_lt.2 (h.le.trans hnew))
    rw [h'.peer, h.peer]
    constructor
    · rintro ⟨⟨hpeer, -, -⟩, hs, hd⟩
      exact ⟨hpeer, hs, hd⟩
    · rintro ⟨hpeer, ⟨r, hs⟩, r', hd⟩
      obtain ⟨_, hs₀⟩ := hsh.site_of_peer (hsh.symm hpeer)
      obtain ⟨_, hd₀⟩ := hsh.site_of_peer hpeer
      exact ⟨⟨hpeer, hbetween hs₀ hs, hbetween hd₀ hd⟩, ⟨r, hs⟩, r', hd⟩

/-- Where blocks have the slots of their kinds again, an input is there still if its slot is. -/
theorem exists_site_iff (h : Pruned sh sh') (hsh : sh.Bounded) (hsh' : sh'.Regular ∅) {s : SocketId}
    {b : BlockId} {slot : String} {p : Ports} (hp : sh.ports b = some p)
    (hs : sh.site s = some (b, .input slot)) :
    (∃ r, sh'.site s = some r) ↔ slot ∈ p.kind.slots := by
  refine ⟨fun ⟨r, hr⟩ => ?_, fun hslot => ⟨_, h.kept hp hslot hs⟩⟩
  obtain ⟨p', hp', hkind⟩ := h.exists_ports hp
  obtain rfl := h.site_eq hsh hs hr
  exact hkind ▸ hsh'.mem_slots hp' False.elim hr

end Pruned

/-- One block that is made anew. -/
theorem Refit.pruned {b : BlockId} {p : Ports} {inputs : List SocketId}
    (h : Refit b p inputs p.kind.slots sh sh') (hp : sh.ports b = some p) : Pruned sh sh' where
  kinds c := by
    rw [h.ports, setPorts]
    by_cases hc : c = b
    · subst hc
      simp only [if_true, hp, Option.map_some]
    · simp only [if_neg hc]
  le := h.le
  output := h.elsewhere (.inr rfl)
  old_or_new {s c slot} hs := by
    by_cases hc : c = b
    · subst hc
      exact (h.old_or_new hs).imp_right And.left
    · exact .inl ((h.elsewhere (.inl hc)).1 hs)
  kept {s c slot q} hq hslot hs := by
    by_cases hc : c = b
    · subst hc
      cases hp.symm.trans hq
      exact h.kept hslot hs
    · exact (h.elsewhere (.inl hc)).2 hs
  peer := h.peer

end Plugboard.Shape
