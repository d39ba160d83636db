import Plugboard.Proofs.Wiring

/-!
# Changes of shape

Links are cut and made, sockets are dropped and added, blocks are added and removed. What is
wired stays wired, and but for a new link nothing is plugged in that was not before.
-/

namespace Plugboard

open Relation

namespace Shape

attribute [ext] Shape

variable {sh sh' : Shape}

/-- Nothing is left plugged into `s`. -/
def cut (sh : Shape) (s : SocketId) : Shape :=
  { sh with peer := fun x => if x = s ∨ sh.peer s = some x then none else sh.peer x }

def join (sh : Shape) (a b : SocketId) : Shape :=
  { sh with peer := fun x => if x = b then some a else if x = a then some b else sh.peer x }

/-- The shape without some sockets, which are unplugged first. -/
def drop (sh : Shape) (gone : List SocketId) : Shape :=
  { sh with
    site := fun s => if s ∈ gone then none else sh.site s
    peer := fun s => if s ∈ gone then none else (sh.peer s).filter (· ∉ gone) }

def setPorts (sh : Shape) (b : BlockId) (p : Option Ports) : Shape :=
  { sh with ports := fun x => if x = b then p else sh.ports x }

theorem exists_ports_setPorts {b c : BlockId} (p : Ports) (h : ∃ q, sh.ports c = some q) :
    ∃ q, (sh.setPorts b (some p)).ports c = some q := by
  obtain ⟨q, hq⟩ := h
  by_cases hc : c = b
  · exact ⟨p, if_pos hc⟩
  · exact ⟨q, (if_neg hc).trans hq⟩

theorem peer_cut (h : sh.Linked) {s x y : SocketId} :
    (sh.cut s).peer x = some y ↔ sh.peer x = some y ∧ x ≠ s ∧ y ≠ s := by
  have hback : sh.peer s = some x ↔ sh.peer x = some s := ⟨h.symm, h.symm⟩
  simp only [cut, hback]
  by_cases hx : x = s
  · simp [hx]
  · by_cases hs : sh.peer x = some s
    · simp only [hs, or_true, if_true, reduceCtorEq, Option.some.injEq, ne_eq, false_iff]
      rintro ⟨rfl, -, hy⟩
      exact hy rfl
    · simp only [hx, hs, or_self, if_false, ne_eq, not_false_eq_true, true_and, iff_self_and]
      rintro hy rfl
      exact hs hy

theorem peer_drop {gone : List SocketId} {x y : SocketId} :
    (sh.drop gone).peer x = some y ↔ sh.peer x = some y ∧ x ∉ gone ∧ y ∉ gone := by
  by_cases hx : x ∈ gone <;> simp [drop, hx, Option.filter_eq_some_iff]

theorem site_drop {gone : List SocketId} {x : SocketId} {r : BlockId × Role} :
    (sh.drop gone).site x = some r ↔ sh.site x = some r ∧ x ∉ gone := by
  by_cases hx : x ∈ gone <;> simp [drop, hx]

theorem drop_nil (sh : Shape) : sh.drop [] = sh := by
  ext x y <;> simp [drop]

theorem drop_cons (sh : Shape) (s : SocketId) (ss : List SocketId) :
    (sh.drop [s]).drop ss = sh.drop (s :: ss) := by
  ext x y
  · rfl
  · rw [site_drop, site_drop, site_drop]
    simp only [List.mem_cons, List.not_mem_nil, or_false]
    tauto
  · rw [peer_drop, peer_drop, peer_drop]
    simp only [List.mem_cons, List.not_mem_nil, or_false]
    tauto
  · rfl
  · rfl

theorem Linked.cut (h : sh.Linked) (s : SocketId) : (sh.cut s).Linked where
  symm hxy := by
    rw [peer_cut h] at hxy ⊢
    exact ⟨h.symm hxy.1, hxy.2.2, hxy.2.1⟩
  joins hxy := h.joins ((peer_cut h).1 hxy).1

theorem Linked.drop (h : sh.Linked) (gone : List SocketId) : (sh.drop gone).Linked where
  symm hxy := by
    rw [peer_drop] at hxy ⊢
    exact ⟨h.symm hxy.1, hxy.2.2, hxy.2.1⟩
  joins hxy := by
    obtain ⟨hxy, hx, hy⟩ := peer_drop.1 hxy
    simp only [site_drop, hx, hy, not_false_eq_true, and_true]
    exact h.joins hxy

/-- A link between an unplugged output and an unplugged input. -/
theorem Linked.join (h : sh.Linked) {a b : SocketId} {c d : BlockId} {slot : String}
    (ha : sh.site a = some (c, .output)) (hb : sh.site b = some (d, .input slot))
    (hfreeA : sh.peer a = none) (hfreeB : sh.peer b = none) : (sh.join a b).Linked := by
  have hne : a ≠ b := by
    rintro rfl
    rw [ha] at hb
    cases hb
  have hother : ∀ {x y}, sh.peer x = some y → y ≠ a ∧ y ≠ b := by
    rintro x y hxy
    constructor
    · rintro rfl
      rw [h.symm hxy] at hfreeA
      cases hfreeA
    · rintro rfl
      rw [h.symm hxy] at hfreeB
      cases hfreeB
  constructor
  · intro x y hxy
    simp only [Shape.join] at hxy ⊢
    split_ifs at hxy with hx hx
    · cases hxy
      simp [hne, hx]
    · cases hxy
      simp [hx]
    · obtain ⟨hya, hyb⟩ := hother hxy
      simp [hya, hyb, h.symm hxy]
  · intro x y hxy
    simp only [Shape.join] at hxy ⊢
    split_ifs at hxy with hx hx
    · cases hxy
      exact .inr ⟨d, c, slot, hx ▸ hb, ha⟩
    · cases hxy
      exact .inl ⟨c, d, slot, hx ▸ ha, hb⟩
    · exact h.joins hxy

/-- The sockets are inputs of `b` in the given slots, in order. -/
def Seats (sh : Shape) (b : BlockId) (inputs : List SocketId) (slots : List String) : Prop :=
  inputs.map sh.site = slots.map fun slot => some (b, .input slot)

namespace Seats

variable {b : BlockId} {inputs : List SocketId} {slots : List String}

theorem exists_slot (h : sh.Seats b inputs slots) {s : SocketId} (hs : s ∈ inputs) :
    ∃ slot ∈ slots, sh.site s = some (b, .input slot) := by
  have hmem : sh.site s ∈ slots.map fun slot => some (b, Role.input slot) :=
    h ▸ List.mem_map_of_mem hs
  obtain ⟨slot, hslot, heq⟩ := List.mem_map.1 hmem
  exact ⟨slot, hslot, heq.symm⟩

theorem exists_socket (h : sh.Seats b inputs slots) {slot : String} (hslot : slot ∈ slots) :
    ∃ s, sh.site s = some (b, .input slot) := by
  have hmem : some (b, Role.input slot) ∈ inputs.map sh.site :=
    h ▸ List.mem_map_of_mem hslot
  obtain ⟨s, -, hs⟩ := List.mem_map.1 hmem
  exact ⟨s, hs⟩

theorem map_slot (h : sh.Seats b inputs slots) : inputs.map sh.slot = slots.map some := by
  have hslot : sh.slot = (fun site => site.bind fun r => r.2.slot?) ∘ sh.site := rfl
  rw [hslot, ← List.map_map, h, List.map_map]
  rfl

theorem nodup (h : sh.Seats b inputs slots) (hnodup : slots.Nodup) :
    (inputs.map sh.slot).Nodup := by
  rw [h.map_slot]
  exact hnodup.map (Option.some_injective _)

end Seats

/-- The inputs of a block are in the slots that they go by. -/
theorem Lists.seats {b : BlockId} {p : Ports} {slots : List String} (h : sh.Lists b p)
    (hslots : p.inputs.map sh.slot = slots.map some) : sh.Seats b p.inputs slots := by
  have hsite : ∀ s ∈ p.inputs, sh.site s = (sh.slot s).map fun slot => (b, .input slot) := by
    intro s hs
    obtain ⟨slot, hs⟩ := h.input hs
    rw [Shape.slot, hs]
    rfl
  calc p.inputs.map sh.site
      = (p.inputs.map sh.slot).map (Option.map fun slot => (b, .input slot)) := by
        rw [List.map_map]
        exact List.map_congr_left hsite
    _ = slots.map fun slot => some (b, .input slot) := by
        rw [hslots, List.map_map]
        rfl

/-- What a block lists depends on its own sockets only. -/
theorem Lists.of_site_iff {c : BlockId} {q : Ports} (h : sh.Lists c q)
    (hsite : ∀ s role, sh'.site s = some (c, role) ↔ sh.site s = some (c, role)) :
    sh'.Lists c q where
  mem_iff s := by
    simp only [hsite]
    exact h.mem_iff s
  output hs := (hsite _ _).2 (h.output hs)
  input hs := by
    obtain ⟨slot, hs⟩ := h.input hs
    exact ⟨slot, (hsite _ _).2 hs⟩
  distinct := by
    have hslot : q.inputs.map sh'.slot = q.inputs.map sh.slot := by
      refine List.map_congr_left fun s hs => ?_
      obtain ⟨slot, hs⟩ := h.input hs
      rw [Shape.slot, Shape.slot, (hsite _ _).2 hs, hs]
    rw [hslot]
    exact h.distinct

/-- No socket goes by an id that was not given out. -/
def Bounded (sh : Shape) : Prop := ∀ s r, sh.site s = some r → s.index < sh.nextSocket

theorem Wired.bounded (h : sh.Wired) : sh.Bounded := fun _ _ => h.socket_lt

/-- Blocks and sockets agree on who owns whom and links go both ways, as in a wired shape. But there
may be inputs that their block does not list, and inputs of a block in one slot. -/
structure Anchored (sh : Shape) : Prop extends sh.Linked where
  block_lt : ∀ {b p}, sh.ports b = some p → b.index < sh.nextBlock
  bounded : sh.Bounded
  owner : ∀ {s b role}, sh.site s = some (b, role) → ∃ p, sh.ports b = some p
  output : ∀ {b p s}, sh.ports b = some p → (p.output = some s ↔ sh.site s = some (b, .output))
  input : ∀ {b p s}, sh.ports b = some p → s ∈ p.inputs →
    ∃ slot, sh.site s = some (b, .input slot)

theorem Wired.anchored (h : sh.Wired) : sh.Anchored where
  toLinked := h.toLinked
  block_lt := h.block_lt
  bounded := h.bounded
  owner := h.owner
  output hp := (h.lists hp).output_eq_some
  input hp := (h.lists hp).input

/-- The same sockets on the same blocks, plugged together in another way. -/
theorem Anchored.of_linked (h : sh.Anchored) (hlinked : sh'.Linked) (hports : sh'.ports = sh.ports)
    (hsite : sh'.site = sh.site) (hblock : sh'.nextBlock = sh.nextBlock)
    (hsocket : sh'.nextSocket = sh.nextSocket) : sh'.Anchored where
  toLinked := hlinked
  block_lt := hports ▸ hblock ▸ h.block_lt
  bounded := by
    intro s r hs
    rw [hsite] at hs
    exact hsocket ▸ h.bounded s r hs
  owner := hports ▸ hsite ▸ h.owner
  output := hports ▸ hsite ▸ h.output
  input := hports ▸ hsite ▸ h.input

/-- `sh'` has the sockets `news` on `b` besides those of `sh`. -/
structure Grown (b : BlockId) (news : List SocketId) (sh sh' : Shape) : Prop where
  ports : sh'.ports = sh.ports
  peer : sh'.peer = sh.peer
  nextBlock : sh'.nextBlock = sh.nextBlock
  le : sh.nextSocket ≤ sh'.nextSocket
  old : ∀ s, s ∉ news → sh'.site s = sh.site s
  fresh : ∀ s ∈ news, sh.nextSocket ≤ s.index ∧ s.index < sh'.nextSocket ∧
    ∃ role, sh'.site s = some (b, role)

namespace Grown

variable {b : BlockId} {news : List SocketId} {sh'' : Shape}

theorem refl (b : BlockId) (sh : Shape) : Grown b [] sh sh :=
  ⟨rfl, rfl, rfl, le_rfl, fun _ _ => rfl, fun _ hs => (List.not_mem_nil hs).elim⟩

theorem trans {news' : List SocketId} (h : Grown b news sh sh') (h' : Grown b news' sh' sh'') :
    Grown b (news ++ news') sh sh'' where
  ports := h'.ports.trans h.ports
  peer := h'.peer.trans h.peer
  nextBlock := h'.nextBlock.trans h.nextBlock
  le := h.le.trans h'.le
  old s hs := by
    rw [List.mem_append, not_or] at hs
    exact (h'.old s hs.2).trans (h.old s hs.1)
  fresh s hs := by
    by_cases hs' : s ∈ news'
    · obtain ⟨hle, hlt, hsite⟩ := h'.fresh s hs'
      exact ⟨h.le.trans hle, hlt, hsite⟩
    · obtain ⟨hle, hlt, role, hsite⟩ := h.fresh s ((List.mem_append.1 hs).resolve_right hs')
      exact ⟨hle, hlt.trans_le h'.le, role, (h'.old s hs').trans hsite⟩

theorem site_of_lt (h : Grown b news sh sh') {s : SocketId} (hs : s.index < sh.nextSocket) :
    sh'.site s = sh.site s :=
  h.old s fun hmem => absurd (h.fresh s hmem).1 (Nat.not_le.2 hs)

theorem bounded (h : Grown b news sh sh') (hsh : sh.Bounded) : sh'.Bounded := by
  intro s r hs
  by_cases hmem : s ∈ news
  · exact (h.fresh s hmem).2.1
  · exact (hsh s r ((h.old s hmem).symm.trans hs)).trans_le h.le

end Grown

/-- The inputs of `b`, whose ports were `p`, are replaced by `inputs` in the slots `slots`: each
is the old one of its slot, or new where there was none. What was linked stays linked if both ends
are still there. -/
structure Refit (b : BlockId) (p : Ports) (inputs : List SocketId) (slots : List String)
    (sh sh' : Shape) : Prop where
  ports : sh'.ports = (sh.setPorts b (some { p with inputs })).ports
  nextBlock : sh'.nextBlock = sh.nextBlock
  le : sh.nextSocket ≤ sh'.nextSocket
  seats : sh'.Seats b inputs slots
  mem_inputs : ∀ {s slot}, sh'.site s = some (b, .input slot) → s ∈ inputs
  old_or_new : ∀ {s slot}, sh'.site s = some (b, .input slot) →
    sh.site s = some (b, .input slot) ∨ sh.nextSocket ≤ s.index ∧ s.index < sh'.nextSocket
  kept : ∀ {s slot}, slot ∈ slots → sh.site s = some (b, .input slot) →
    sh'.site s = some (b, .input slot)
  elsewhere : ∀ {s c role}, c ≠ b ∨ role = .output →
    (sh'.site s = some (c, role) ↔ sh.site s = some (c, role))
  peer : ∀ {s d}, sh'.peer s = some d ↔
    sh.peer s = some d ∧ (∃ r, sh'.site s = some r) ∧ ∃ r, sh'.site d = some r

namespace Refit

variable {b : BlockId} {p : Ports} {inputs : List SocketId} {slots : List String}

/-- A socket that was there before and is there still is what it was. -/
theorem site_eq (h : Refit b p inputs slots sh sh') (hsh : sh.Wired) {s : SocketId}
    {r r' : BlockId × Role} (hs : sh.site s = some r) (hs' : sh'.site s = some r') : r' = r := by
  obtain ⟨c, role⟩ := r'
  have hold : sh.site s = some (c, role) := by
    by_cases hc : c ≠ b ∨ role = .output
    · exact (h.elsewhere hc).1 hs'
    · rw [not_or, not_not] at hc
      obtain ⟨rfl, hrole⟩ := hc
      cases role with
      | output => exact (hrole rfl).elim
      | input slot =>
          exact (h.old_or_new hs').resolve_right fun hnew =>
            absurd (hsh.socket_lt hs) (Nat.not_lt.2 hnew.1)
  exact Option.some.inj (hold.symm.trans hs)

theorem linked (h : Refit b p inputs slots sh sh') (hsh : sh.Wired) : sh'.Linked where
  symm hd := by
    obtain ⟨hd, hs, hd'⟩ := h.peer.1 hd
    exact h.peer.2 ⟨hsh.symm hd, hd', hs⟩
  joins hd := by
    obtain ⟨hd, ⟨r, hr⟩, ⟨r', hr'⟩⟩ := h.peer.1 hd
    rcases hsh.joins hd with ⟨c, c', slot, hs, hs'⟩ | ⟨c, c', slot, hs, hs'⟩
    · exact .inl ⟨c, c', slot, h.site_eq hsh hs hr ▸ hr, h.site_eq hsh hs' hr' ▸ hr'⟩
    · exact .inr ⟨c, c', slot, h.site_eq hsh hs hr ▸ hr, h.site_eq hsh hs' hr' ▸ hr'⟩

theorem plugged (h : Refit b p inputs slots sh sh') (hsh : sh.Wired) {c d : BlockId}
    (hplug : sh'.Plugged c d) : sh.Plugged c d := by
  obtain ⟨s, t, slot, hs, ht, hd⟩ := hplug
  have hold := (h.peer.1 ht).1
  obtain ⟨r, hr⟩ := hsh.site_of_peer hold
  obtain rfl := h.site_eq hsh hr hd
  exact ⟨s, t, slot, (h.elsewhere (.inr rfl)).1 hs, hold, hr⟩

theorem lists_self (h : Refit b p inputs slots sh sh') (hsh : sh.Wired)
    (hp : sh.ports b = some p) (hnodup : slots.Nodup) : sh'.Lists b { p with inputs } where
  mem_iff s := by
    simp only [Ports.sockets, List.mem_append, Option.mem_toList,
      (hsh.lists hp).output_eq_some]
    constructor
    · rintro (hs | hs)
      · exact ⟨.output, (h.elsewhere (.inr rfl)).2 hs⟩
      · obtain ⟨slot, -, hsite⟩ := h.seats.exists_slot hs
        exact ⟨_, hsite⟩
    · rintro ⟨role, hs⟩
      cases role with
      | output => exact .inl ((h.elsewhere (.inr rfl)).1 hs)
      | input slot => exact .inr (h.mem_inputs hs)
  output hs := (h.elsewhere (.inr rfl)).2 ((hsh.lists hp).output hs)
  input hs := by
    obtain ⟨slot, -, hsite⟩ := h.seats.exists_slot hs
    exact ⟨slot, hsite⟩
  distinct := h.seats.nodup hnodup

theorem wired (h : Refit b p inputs slots sh sh') (hsh : sh.Wired) (hp : sh.ports b = some p)
    (hnodup : slots.Nodup) : sh'.Wired where
  toLinked := h.linked hsh
  block_lt := by
    intro c q hq
    rw [h.nextBlock]
    rw [h.ports, setPorts] at hq
    by_cases hc : c = b
    · exact hc ▸ hsh.block_lt hp
    · exact hsh.block_lt ((if_neg hc).symm.trans hq)
  socket_lt := by
    rintro s ⟨c, role⟩ hs
    by_cases hc : c ≠ b ∨ role = .output
    · exact (hsh.socket_lt ((h.elsewhere hc).1 hs)).trans_le h.le
    · rw [not_or, not_not] at hc
      obtain ⟨rfl, hrole⟩ := hc
      cases role with
      | output => exact (hrole rfl).elim
      | input slot =>
          rcases h.old_or_new hs with hold | hnew
          · exact (hsh.socket_lt hold).trans_le h.le
          · exact hnew.2
  owner := by
    intro s c role hs
    rw [h.ports, setPorts]
    by_cases hc : c = b
    · exact ⟨_, if_pos hc⟩
    · obtain ⟨q, hq⟩ := hsh.owner ((h.elsewhere (.inl hc)).1 hs)
      exact ⟨q, (if_neg hc).trans hq⟩
  lists := by
    intro c q hq
    rw [h.ports, setPorts] at hq
    by_cases hc : c = b
    · subst hc
      obtain rfl := Option.some.inj ((if_pos rfl).symm.trans hq)
      exact h.lists_self hsh hp hnodup
    · exact (hsh.lists ((if_neg hc).symm.trans hq)).of_site_iff fun _ _ => h.elsewhere (.inl hc)

end Refit

/-- A new block with new sockets, none of which is plugged in. -/
structure Added (b : BlockId) (p : Ports) (slots : List String) (sh sh' : Shape) : Prop where
  ports : sh'.ports = (sh.setPorts b (some p)).ports
  peer : sh'.peer = sh.peer
  new : sh.nextBlock ≤ b.index ∧ b.index < sh'.nextBlock
  le : sh.nextSocket ≤ sh'.nextSocket
  old : ∀ s, s ∉ p.sockets → sh'.site s = sh.site s
  fresh : ∀ s ∈ p.sockets, sh.nextSocket ≤ s.index ∧ s.index < sh'.nextSocket
  output : ∀ s, p.output = some s → sh'.site s = some (b, .output)
  seats : sh'.Seats b p.inputs slots

namespace Added

variable {b : BlockId} {p : Ports} {slots : List String}

theorem ports_eq_none (h : Added b p slots sh sh') (hsh : sh.Anchored) : sh.ports b = none := by
  cases hq : sh.ports b with
  | none => rfl
  | some q => exact absurd (hsh.block_lt hq) (Nat.not_lt.2 h.new.1)

theorem site_of_some (h : Added b p slots sh sh') (hsh : sh.Bounded) {s : SocketId}
    {r : BlockId × Role} (hs : sh.site s = some r) : sh'.site s = some r :=
  (h.old s fun hmem => absurd (hsh s r hs) (Nat.not_lt.2 (h.fresh s hmem).1)).trans hs

theorem site_of_mem (h : Added b p slots sh sh') {s : SocketId} (hs : s ∈ p.sockets) :
    ∃ role, sh'.site s = some (b, role) := by
  rcases List.mem_append.1 hs with hs | hs
  · exact ⟨_, h.output s (Option.mem_toList.1 hs)⟩
  · obtain ⟨slot, -, hsite⟩ := h.seats.exists_slot hs
    exact ⟨_, hsite⟩

theorem site_of_ne (h : Added b p slots sh sh') (hsh : sh.Bounded) {s : SocketId} {c : BlockId}
    {role : Role} (hc : c ≠ b) : sh'.site s = some (c, role) ↔ sh.site s = some (c, role) := by
  refine ⟨fun hs => ?_, h.site_of_some hsh⟩
  by_cases hmem : s ∈ p.sockets
  · obtain ⟨role', hsite⟩ := h.site_of_mem hmem
    rw [hs] at hsite
    cases hsite
    exact (hc rfl).elim
  · exact (h.old s hmem).symm.trans hs

theorem linked (h : Added b p slots sh sh') (hsh : sh.Anchored) : sh'.Linked where
  symm hd := by
    rw [h.peer] at hd ⊢
    exact hsh.symm hd
  joins hd := by
    rw [h.peer] at hd
    have hlive : ∀ {s r}, sh.site s = some r → sh'.site s = some r := h.site_of_some hsh.bounded
    rcases hsh.joins hd with ⟨c, c', slot, hs, hs'⟩ | ⟨c, c', slot, hs, hs'⟩
    · exact .inl ⟨c, c', slot, hlive hs, hlive hs'⟩
    · exact .inr ⟨c, c', slot, hlive hs, hlive hs'⟩

theorem plugged (h : Added b p slots sh sh') (hsh : sh.Wired) {c d : BlockId}
    (hplug : sh'.Plugged c d) : sh.Plugged c d := by
  obtain ⟨s, t, slot, hs, ht, hd⟩ := hplug
  rw [h.peer] at ht
  obtain ⟨r, hr⟩ := hsh.site_of_peer ht
  obtain ⟨r', hr'⟩ := hsh.site_of_peer (hsh.symm ht)
  obtain rfl := Option.some.inj ((h.site_of_some hsh.bounded hr).symm.trans hd)
  obtain rfl := Option.some.inj ((h.site_of_some hsh.bounded hr').symm.trans hs)
  exact ⟨s, t, slot, hr', ht, hr⟩

/-- All that is on the new block is new. -/
theorem mem_sockets (h : Added b p slots sh sh') (hsh : sh.Anchored) {s : SocketId} {role : Role}
    (hs : sh'.site s = some (b, role)) : s ∈ p.sockets := by
  by_contra hmem
  obtain ⟨q, hq⟩ := hsh.owner ((h.old s hmem).symm.trans hs)
  rw [h.ports_eq_none hsh] at hq
  cases hq

theorem ports_cases (h : Added b p slots sh sh') {c : BlockId} {q : Ports}
    (hq : sh'.ports c = some q) : c = b ∧ q = p ∨ c ≠ b ∧ sh.ports c = some q := by
  rw [h.ports, setPorts] at hq
  by_cases hc : c = b
  · exact .inl ⟨hc, (Option.some.inj ((if_pos hc).symm.trans hq)).symm⟩
  · exact .inr ⟨hc, (if_neg hc).symm.trans hq⟩

theorem input (h : Added b p slots sh sh') {s : SocketId} (hs : s ∈ p.inputs) :
    ∃ slot, sh'.site s = some (b, .input slot) :=
  let ⟨slot, _, hsite⟩ := h.seats.exists_slot hs
  ⟨slot, hsite⟩

theorem anchored (h : Added b p slots sh sh') (hsh : sh.Anchored) : sh'.Anchored where
  toLinked := h.linked hsh
  block_lt := by
    intro c q hq
    rcases h.ports_cases hq with ⟨rfl, -⟩ | ⟨-, hq⟩
    · exact h.new.2
    · exact (hsh.block_lt hq).trans (h.new.1.trans_lt h.new.2)
  bounded := by
    intro s r hs
    by_cases hmem : s ∈ p.sockets
    · exact (h.fresh s hmem).2
    · exact (hsh.bounded s r ((h.old s hmem).symm.trans hs)).trans_le h.le
  owner := by
    intro s c role hs
    rw [h.ports, setPorts]
    by_cases hc : c = b
    · exact ⟨_, if_pos hc⟩
    · obtain ⟨q, hq⟩ := hsh.owner ((h.site_of_ne hsh.bounded hc).1 hs)
      exact ⟨q, (if_neg hc).trans hq⟩
  output := by
    intro c q s hq
    rcases h.ports_cases hq with ⟨rfl, rfl⟩ | ⟨hc, hq⟩
    · refine ⟨h.output s, fun hs => ?_⟩
      rcases List.mem_append.1 (h.mem_sockets hsh hs) with hout | hin
      · exact Option.mem_toList.1 hout
      · obtain ⟨slot, hsite⟩ := h.input hin
        cases hs.symm.trans hsite
    · exact (hsh.output hq).trans (h.site_of_ne hsh.bounded hc).symm
  input := by
    intro c q s hq hs
    rcases h.ports_cases hq with ⟨rfl, rfl⟩ | ⟨hc, hq⟩
    · exact h.input hs
    · obtain ⟨slot, hsite⟩ := hsh.input hq hs
      exact ⟨slot, (h.site_of_ne hsh.bounded hc).2 hsite⟩

theorem lists_self (h : Added b p slots sh sh') (hsh : sh.Wired) (hnodup : slots.Nodup) :
    sh'.Lists b p where
  mem_iff _ := ⟨h.site_of_mem, fun ⟨_, hs⟩ => h.mem_sockets hsh.anchored hs⟩
  output hs := h.output _ hs
  input := h.input
  distinct := h.seats.nodup hnodup

theorem wired (h : Added b p slots sh sh') (hsh : sh.Wired) (hnodup : slots.Nodup) :
    sh'.Wired where
  toLinked := h.linked hsh.anchored
  block_lt := (h.anchored hsh.anchored).block_lt
  socket_lt hs := (h.anchored hsh.anchored).bounded _ _ hs
  owner := (h.anchored hsh.anchored).owner
  lists := by
    intro c q hq
    rcases h.ports_cases hq with ⟨rfl, rfl⟩ | ⟨hc, hq⟩
    · exact h.lists_self hsh hnodup
    · exact (hsh.lists hq).of_site_iff fun _ _ => h.site_of_ne hsh.bounded hc

end Added

/-- The same sockets on the same blocks, plugged together in another way. -/
theorem Wired.of_linked (h : sh.Wired) (hlinked : sh'.Linked) (hports : sh'.ports = sh.ports)
    (hsite : sh'.site = sh.site) (hblock : sh'.nextBlock = sh.nextBlock)
    (hsocket : sh'.nextSocket = sh.nextSocket) : sh'.Wired where
  toLinked := hlinked
  block_lt hp := by
    rw [hports] at hp
    exact hblock ▸ h.block_lt hp
  socket_lt hs := by
    rw [hsite] at hs
    exact hsocket ▸ h.socket_lt hs
  owner hs := by
    rw [hsite] at hs
    exact hports ▸ h.owner hs
  lists hp := by
    rw [hports] at hp
    exact (h.lists hp).of_site_iff fun _ _ => by rw [hsite]

theorem Wired.cut (h : sh.Wired) (s : SocketId) : (sh.cut s).Wired :=
  h.of_linked (h.toLinked.cut s) rfl rfl rfl rfl

theorem Wired.join (h : sh.Wired) {a b : SocketId} {c d : BlockId} {slot : String}
    (ha : sh.site a = some (c, .output)) (hb : sh.site b = some (d, .input slot))
    (hfreeA : sh.peer a = none) (hfreeB : sh.peer b = none) : (sh.join a b).Wired :=
  h.of_linked (h.toLinked.join ha hb hfreeA hfreeB) rfl rfl rfl rfl

theorem Wired.setKind (h : sh.Wired) {b : BlockId} {p : Ports} (hp : sh.ports b = some p)
    (kind : BlockKind) : (sh.setPorts b (some { p with kind })).Wired where
  toLinked := ⟨h.symm, h.joins⟩
  block_lt := by
    intro c q hq
    by_cases hc : c = b
    · subst hc
      exact h.block_lt hp
    · exact h.block_lt ((if_neg hc).symm.trans hq)
  socket_lt := h.socket_lt
  owner := by
    intro s c role hs
    by_cases hc : c = b
    · exact ⟨_, if_pos hc⟩
    · obtain ⟨q, hq⟩ := h.owner hs
      exact ⟨q, (if_neg hc).trans hq⟩
  lists := by
    intro c q hq
    by_cases hc : c = b
    · subst hc
      obtain rfl := Option.some.inj ((if_pos rfl).symm.trans hq)
      exact ⟨(h.lists hp).mem_iff, (h.lists hp).output, (h.lists hp).input, (h.lists hp).distinct⟩
    · exact (h.lists ((if_neg hc).symm.trans hq)).of_site_iff fun _ _ => Iff.rfl

/-- A block that is removed with all its sockets. -/
theorem Wired.remove (h : sh.Wired) {b : BlockId} {p : Ports} (hp : sh.ports b = some p) :
    ((sh.drop p.sockets).setPorts b none).Wired := by
  have hgone : ∀ {s c role}, sh.site s = some (c, role) → (s ∈ p.sockets ↔ c = b) := by
    intro s c role hs
    rw [(h.lists hp).mem_iff]
    constructor
    · rintro ⟨role', hs'⟩
      exact (Prod.mk.inj (Option.some.inj (hs.symm.trans hs'))).1
    · rintro rfl
      exact ⟨role, hs⟩
  have hports : ∀ {c q}, ((sh.drop p.sockets).setPorts b none).ports c = some q →
      c ≠ b ∧ sh.ports c = some q := by
    intro c q hq
    by_cases hc : c = b
    · cases (if_pos hc).symm.trans hq
    · exact ⟨hc, (if_neg hc).symm.trans hq⟩
  constructor
  · exact ⟨(h.toLinked.drop p.sockets).symm, (h.toLinked.drop p.sockets).joins⟩
  · intro c q hq
    exact h.block_lt (hports hq).2
  · intro s r hs
    exact h.socket_lt (site_drop.1 hs).1
  · intro s c role hs
    obtain ⟨hs, hkept⟩ := site_drop.1 hs
    obtain ⟨q, hq⟩ := h.owner hs
    exact ⟨q, (if_neg fun hc => hkept ((hgone hs).2 hc)).trans hq⟩
  · intro c q hq
    obtain ⟨hc, hq⟩ := hports hq
    refine (h.lists hq).of_site_iff fun s role => site_drop.trans ?_
    exact and_iff_left_of_imp fun hs hmem => hc ((hgone hs).1 hmem)

theorem plugged_cut (h : sh.Linked) {s : SocketId} {c d : BlockId}
    (hplug : (sh.cut s).Plugged c d) : sh.Plugged c d := by
  obtain ⟨x, y, slot, hx, hxy, hy⟩ := hplug
  exact ⟨x, y, slot, hx, ((peer_cut h).1 hxy).1, hy⟩

theorem plugged_drop {gone : List SocketId} {c d : BlockId}
    (hplug : (sh.drop gone).Plugged c d) : sh.Plugged c d := by
  obtain ⟨x, y, slot, hx, hxy, hy⟩ := hplug
  exact ⟨x, y, slot, (site_drop.1 hx).1, (peer_drop.1 hxy).1, (site_drop.1 hy).1⟩

theorem plugged_join {a b : SocketId} {c d : BlockId} {slot : String}
    (ha : sh.site a = some (c, .output)) (hb : sh.site b = some (d, .input slot)) {x y : BlockId} :
    (sh.join a b).Plugged x y → sh.Plugged x y ∨ x = c ∧ y = d := by
  rintro ⟨s, t, slot', hs, ht, hy⟩
  simp only [join] at hs ht hy
  split_ifs at ht with hsb hsa
  · subst hsb
    rw [hb] at hs
    cases hs
  · cases ht
    subst hsa
    rw [ha] at hs
    rw [hb] at hy
    cases hs
    cases hy
    exact .inr ⟨rfl, rfl⟩
  · exact .inl ⟨s, t, slot', hs, ht, hy⟩

theorem Acyclic.mono (h : sh.Acyclic) (hplug : ∀ {c d}, sh'.Plugged c d → sh.Plugged c d) :
    sh'.Acyclic :=
  fun b hb => h b (TransGen.mono (fun _ _ => hplug) b b hb)

/-- A link closes no cycle if the block that takes is not below the one that gives. -/
theorem Acyclic.of_link (h : sh.Acyclic) {c d : BlockId} (hbelow : ¬ sh.Below d c)
    (hplug : ∀ {x y}, sh'.Plugged x y → sh.Plugged x y ∨ x = c ∧ y = d) : sh'.Acyclic := by
  -- a path either does without the link, or leads to its start and comes from its end
  have hpath : ∀ {x y}, TransGen sh'.Plugged x y →
      TransGen sh.Plugged x y ∨ sh.Below x c ∧ sh.Below d y := by
    intro x y hxy
    induction hxy with
    | single hstep =>
        rcases hplug hstep with hold | ⟨rfl, rfl⟩
        · exact .inl (.single hold)
        · exact .inr ⟨.refl, .refl⟩
    | tail _ hstep ih =>
        rcases hplug hstep with hold | ⟨rfl, rfl⟩
        · exact ih.imp (fun h => h.tail hold) fun h => ⟨h.1, h.2.tail hold⟩
        · exact .inr ⟨ih.elim (fun h => h.to_reflTransGen) And.left, .refl⟩
  intro x hx
  rcases hpath hx with hcycle | ⟨hxc, hdx⟩
  · exact h x hcycle
  · exact hbelow (hdx.trans hxc)

end Shape

end Plugboard
