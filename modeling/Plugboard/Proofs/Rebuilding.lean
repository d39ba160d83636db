import Plugboard.Proofs.Rewiring

/-!
# Giving a block a layout

Whichever layout a block is given, its sockets are turned over: some go, with the links that they
had, some come, and those that are neither are as they were. Where the block has one input in each
slot and the layout has an output just if the block has one, the inputs are refitted.
-/

namespace Plugboard

namespace Shape

variable {sh sh' sh'' : Shape} {b : BlockId} {p p' : Ports} {slots : List String}
  {news news' gone gone' : List SocketId}

/-- `sh'` has the sockets `news` on `b` besides those of `sh`, and not the sockets `gone`, which
were on `b`. -/
structure Turned (b : BlockId) (news gone : List SocketId) (sh sh' : Shape) : Prop where
  ports : sh'.ports = sh.ports
  nextBlock : sh'.nextBlock = sh.nextBlock
  le : sh.nextSocket ≤ sh'.nextSocket
  went : ∀ s ∈ gone, ∃ role, sh.site s = some (b, role)
  kept : ∀ {s r}, sh.site s = some r → s ∉ gone → sh'.site s = some r
  old : ∀ {s r}, s ∉ news → sh'.site s = some r → sh.site s = some r ∧ s ∉ gone
  fresh : ∀ s ∈ news, sh.nextSocket ≤ s.index ∧ s.index < sh'.nextSocket ∧
    ∃ role, sh'.site s = some (b, role)
  peer : ∀ {s d}, sh'.peer s = some d ↔ sh.peer s = some d ∧ s ∉ gone ∧ d ∉ gone

theorem Grown.turned (h : Grown b news sh sh') (hsh : sh.Bounded) : Turned b news [] sh sh' where
  ports := h.ports
  nextBlock := h.nextBlock
  le := h.le
  went _ hs := (List.not_mem_nil hs).elim
  kept hs _ := (h.site_of_lt (hsh _ _ hs)).trans hs
  old hs hsite := ⟨(h.old _ hs).symm.trans hsite, List.not_mem_nil⟩
  fresh := h.fresh
  peer := by simp [h.peer]

theorem turned_drop (hgone : ∀ s ∈ gone, ∃ role, sh.site s = some (b, role)) :
    Turned b [] gone sh (sh.drop gone) where
  ports := rfl
  nextBlock := rfl
  le := le_rfl
  went := hgone
  kept hs hkept := site_drop.2 ⟨hs, hkept⟩
  old _ hs := site_drop.1 hs
  fresh _ hs := (List.not_mem_nil hs).elim
  peer := peer_drop

namespace Turned

theorem bounded (h : Turned b news gone sh sh') (hsh : sh.Bounded) : sh'.Bounded := by
  intro s r hs
  by_cases hnew : s ∈ news
  · exact (h.fresh s hnew).2.1
  · exact (hsh s r (h.old hnew hs).1).trans_le h.le

theorem not_mem_news (h : Turned b news gone sh sh') (hsh : sh.Bounded) {s : SocketId}
    {r : BlockId × Role} (hs : sh.site s = some r) : s ∉ news := fun hnew =>
  absurd (h.fresh s hnew).1 (Nat.not_le.2 (hsh s r hs))

/-- Of the sockets that were there, just those that are not gone still are. -/
theorem not_mem_gone_iff (h : Turned b news gone sh sh') (hsh : sh.Bounded) {s : SocketId}
    {r : BlockId × Role} (hs : sh.site s = some r) : s ∉ gone ↔ ∃ r', sh'.site s = some r' := by
  refine ⟨fun hkept => ⟨r, h.kept hs hkept⟩, fun hs' => ?_⟩
  obtain ⟨r', hs'⟩ := hs'
  exact (h.old (h.not_mem_news hsh hs) hs').2

theorem trans (h : Turned b news gone sh sh') (h' : Turned b news' gone' sh' sh'')
    (hsh : sh.Bounded) (hold : ∀ s ∈ gone', ∃ role, sh.site s = some (b, role)) :
    Turned b (news ++ news') (gone ++ gone') sh sh'' where
  ports := h'.ports.trans h.ports
  nextBlock := h'.nextBlock.trans h.nextBlock
  le := h.le.trans h'.le
  went := List.forall_mem_append.2 ⟨h.went, hold⟩
  kept hs hkept := by
    rw [List.mem_append, not_or] at hkept
    exact h'.kept (h.kept hs hkept.1) hkept.2
  old hs hsite := by
    rw [List.mem_append, not_or] at hs ⊢
    obtain ⟨hsite, hkept'⟩ := h'.old hs.2 hsite
    obtain ⟨hsite, hkept⟩ := h.old hs.1 hsite
    exact ⟨hsite, hkept, hkept'⟩
  fresh s hs := by
    by_cases hs' : s ∈ news'
    · obtain ⟨hle, hlt, hsite⟩ := h'.fresh s hs'
      exact ⟨h.le.trans hle, hlt, hsite⟩
    · have hnew := (List.mem_append.1 hs).resolve_right hs'
      obtain ⟨hle, hlt, role, hsite⟩ := h.fresh s hnew
      refine ⟨hle, hlt.trans_le h'.le, role, h'.kept hsite fun hgone => ?_⟩
      obtain ⟨role', hsite'⟩ := hold s hgone
      exact h.not_mem_news hsh hsite' hnew
  peer := by
    intro s d
    rw [h'.peer, h.peer]
    simp only [List.mem_append, not_or]
    tauto

theorem setPorts (h : Turned b news gone sh sh') (p : Option Ports) :
    Turned b news gone (sh.setPorts b p) (sh'.setPorts b p) :=
  { h with ports := by rw [Shape.setPorts, Shape.setPorts, h.ports] }

theorem linked (h : Turned b news gone sh sh') (hsh : sh.Linked) : sh'.Linked where
  symm hd := by
    rw [h.peer] at hd ⊢
    exact ⟨hsh.symm hd.1, hd.2.2, hd.2.1⟩
  joins hd := by
    obtain ⟨hd, hs, hd'⟩ := h.peer.1 hd
    rcases hsh.joins hd with ⟨c, c', slot, hc, hc'⟩ | ⟨c, c', slot, hc, hc'⟩
    · exact .inl ⟨c, c', slot, h.kept hc hs, h.kept hc' hd'⟩
    · exact .inr ⟨c, c', slot, h.kept hc hs, h.kept hc' hd'⟩

/-- Other blocks have the sockets that they had. -/
theorem site_of_ne (h : Turned b news gone sh sh') {s : SocketId} {c : BlockId} {role : Role}
    (hc : c ≠ b) : sh'.site s = some (c, role) ↔ sh.site s = some (c, role) := by
  constructor
  · intro hs
    by_cases hnew : s ∈ news
    · obtain ⟨-, -, role', hsite⟩ := h.fresh s hnew
      cases hs.symm.trans hsite
      exact (hc rfl).elim
    · exact (h.old hnew hs).1
  · intro hs
    refine h.kept hs fun hgone => ?_
    obtain ⟨role', hsite⟩ := h.went s hgone
    cases hs.symm.trans hsite
    exact hc rfl

end Turned

/-- The inputs of a block have been turned over: each of `slots` has the last one that there was in
it, or else one that has come, and of those in other slots the last ones are gone. -/
structure Reseated (b : BlockId) (p : Ports) (slots : List String)
    (inputs news gone : List SocketId) (sh sh' : Shape) : Prop where
  turned : Turned b news gone sh sh'
  seats : sh'.Seats b inputs slots
  news_mem : ∀ s ∈ news, s ∈ inputs
  mem_gone : ∀ s, s ∈ gone ↔ ∃ slot ∉ slots, sh.lastIn p.inputs slot = some s
  reused : ∀ slot ∈ slots, ∀ s, sh.lastIn p.inputs slot = some s → s ∈ inputs

namespace Reseated

variable {inputs : List SocketId} (h : Reseated b p slots inputs news gone sh sh')
  (hsh : sh.Anchored) (hp : sh.ports b = some p)

include h hsh hp

theorem site_of_gone {s : SocketId} (hs : s ∈ gone) :
    ∃ slot, sh.site s = some (b, .input slot) := by
  obtain ⟨slot, -, hlast⟩ := (h.mem_gone s).1 hs
  exact ⟨slot, hsh.site_of_lastIn hp hlast⟩

theorem not_mem_gone {s : SocketId} {c : BlockId} (hs : sh.site s = some (c, .output)) :
    s ∉ gone := by
  intro hgone
  obtain ⟨slot, hin⟩ := h.site_of_gone hsh hp hgone
  cases hs.symm.trans hin

/-- The output is not among them. -/
theorem output {s : SocketId} : p.output = some s ↔ sh'.site s = some (b, .output) := by
  rw [hsh.output hp]
  refine ⟨fun hs => h.turned.kept hs (h.not_mem_gone hsh hp hs), fun hs => ?_⟩
  refine (h.turned.old (fun hnew => ?_) hs).1
  obtain ⟨slot, -, hin⟩ := h.seats.exists_slot (h.news_mem s hnew)
  cases hs.symm.trans hin

end Reseated

/-- The sockets of a block have been turned over, and it has new ports. -/
structure Rebuilt (b : BlockId) (p' : Ports) (slots : List String) (news gone : List SocketId)
    (sh sh' : Shape) : Prop where
  turned : Turned b news gone (sh.setPorts b (some p')) sh'
  came : ∀ s ∈ news, s ∈ p'.sockets
  output : ∀ {s}, p'.output = some s ↔ sh'.site s = some (b, .output)
  seats : sh'.Seats b p'.inputs slots

namespace Rebuilt

variable (h : Rebuilt b p' slots news gone sh sh')

include h

theorem ports_cases {c : BlockId} {q : Ports} (hq : sh'.ports c = some q) :
    c = b ∧ q = p' ∨ c ≠ b ∧ sh.ports c = some q := by
  rw [h.turned.ports, setPorts] at hq
  by_cases hc : c = b
  · exact .inl ⟨hc, (Option.some.inj ((if_pos hc).symm.trans hq)).symm⟩
  · exact .inr ⟨hc, (if_neg hc).symm.trans hq⟩

theorem anchored (hsh : sh.Anchored) (hp : sh.ports b = some p) : sh'.Anchored where
  toLinked := h.turned.linked ⟨hsh.symm, hsh.joins⟩
  block_lt := by
    intro c q hq
    rw [h.turned.nextBlock]
    rcases h.ports_cases hq with ⟨rfl, -⟩ | ⟨-, hq⟩
    · exact hsh.block_lt hp
    · exact hsh.block_lt hq
  bounded := h.turned.bounded hsh.bounded
  owner := by
    intro s c role hs
    rw [h.turned.ports]
    by_cases hc : c = b
    · exact ⟨p', if_pos hc⟩
    · exact exists_ports_setPorts p' (hsh.owner ((h.turned.site_of_ne hc).1 hs))
  output := by
    intro c q s hq
    rcases h.ports_cases hq with ⟨rfl, rfl⟩ | ⟨hc, hq⟩
    · exact h.output
    · exact (hsh.output hq).trans (h.turned.site_of_ne hc).symm
  input := by
    intro c q s hq hs
    rcases h.ports_cases hq with ⟨rfl, rfl⟩ | ⟨hc, hq⟩
    · obtain ⟨slot, -, hsite⟩ := h.seats.exists_slot hs
      exact ⟨slot, hsite⟩
    · obtain ⟨slot, hsite⟩ := hsh.input hq hs
      exact ⟨slot, (h.turned.site_of_ne hc).2 hsite⟩

end Rebuilt

end Shape

namespace GraphM

open Plugboard.Graph

variable {g : Graph} {b : BlockId}

/-- The one output of a block is kept, made or removed. -/
theorem ends_replaceOutput (hlinked : g.shape.Linked) (hbounded : g.shape.Bounded)
    {output : Option SocketId} (hout : ∀ {s}, output = some s ↔ g.shape.site s = some (b, .output))
    (ty : Option Ty) :
    Ends (replaceOutput b output ty) g (fun r g' => ∃ news gone,
      Shape.Turned b news gone g.shape g'.shape ∧ r.1.isSome = ty.isSome ∧
      (∀ s ∈ news, r.1 = some s) ∧ (∀ s, s ∈ gone ↔ ty = none ∧ output = some s) ∧
      (∀ {s}, r.1 = some s ↔ g'.shape.site s = some (b, .output)) ∧
      ∀ s ∈ gone, ∀ d, g.shape.peer s = some d → b ∈ r.2) fun _ => False := by
  have hsame : Shape.Turned b [] [] g.shape g.shape := (Shape.Grown.refl b g.shape).turned hbounded
  cases output with
  | none =>
      cases ty with
      | none => exact ⟨[], [], hsame, rfl, by simp, by simp, hout, by simp⟩
      | some ty =>
          obtain ⟨hs, hgrown⟩ := grown_addSocket hbounded b .output ty
          refine ⟨_, [], hgrown.turned hbounded, rfl, fun s hs => ?_, by simp, fun {s} => ?_,
            by simp⟩
          · exact congrArg some (List.mem_singleton.1 hs).symm
          refine ⟨fun h => Option.some.inj h ▸ hs, fun hs' => ?_⟩
          by_contra hne
          have hold := hgrown.old s fun hmem => hne (congrArg some (List.mem_singleton.1 hmem).symm)
          cases hout.2 (hold.symm.trans hs')
  | some o =>
      have ho := hout.1 rfl
      cases ty with
      | some ty =>
          rw [replaceOutput, ends_bind]
          refine (ends_updateSocket ho _).imp (fun _ g' hg' => ?_) fun _ => id
          have hshape : g'.shape = g.shape := hg' ▸ shape_modifySocket fun _ => ⟨rfl, rfl, rfl⟩
          refine ⟨[], [], hshape ▸ hsame, rfl, by simp, by simp, fun {s} => ?_, by simp⟩
          rw [hshape]
          exact hout
      | none =>
          rw [replaceOutput, ends_bind]
          refine (ends_dropSocket hlinked ho).imp (fun peer g' hended => ?_) fun _ => id
          obtain ⟨hpeer, hg'⟩ := hended
          refine ⟨[], [o], hg' ▸ Shape.turned_drop ?_, rfl, by simp, by simp [eq_comm],
            fun {s} => ?_, ?_⟩
          · exact List.forall_mem_singleton.2 ⟨_, ho⟩
          · rw [hg', Shape.site_drop, ← hout]
            simp [eq_comm]
          · rw [List.forall_mem_singleton]
            intro d hd
            simp [hpeer, hd]

/-- What becomes of a block that is given a layout, whichever it is. -/
structure Rebuilds (b : BlockId) (p p' : Ports) (layout : Layout) (detached : List BlockId)
    (sh sh' : Shape) (news gone : List SocketId) : Prop where
  rebuilt : Shape.Rebuilt b p' (layout.inputs.map (·.1)) news gone sh sh'
  kind : p'.kind = p.kind
  output : p'.output.isSome = layout.output.isSome
  mem_gone : ∀ s, s ∈ gone ↔ (∃ slot ∉ layout.inputs.map (·.1),
    sh.lastIn p.inputs slot = some s) ∨ layout.output = none ∧ p.output = some s
  reused : ∀ slot ∈ layout.inputs.map (·.1), ∀ s, sh.lastIn p.inputs slot = some s →
    s ∈ p'.inputs
  /-- What was plugged into an input that is gone is reported. -/
  guests : ∀ s ∈ gone, ∀ slot d c role, sh.site s = some (b, .input slot) →
    sh.peer s = some d → sh.site d = some (c, role) → c ∈ detached
  /-- So is the block itself if its output is gone and was plugged in. -/
  self : ∀ s ∈ gone, ∀ d, sh.site s = some (b, .output) → sh.peer s = some d → b ∈ detached

/-- Inputs that are reused, with the rest dropped, have been turned over. -/
theorem Reused.reseated {old left : Std.ExtTreeMap String SocketId} {slots : List String}
    {sh sh' : Shape} {p : Ports} {inputs news : List SocketId}
    (h : Reused b old slots sh sh' inputs news left) (hsh : sh.Anchored)
    (hp : sh.ports b = some p) (hold : ∀ slot, old[slot]? = sh.lastIn p.inputs slot) :
    Shape.Reseated b p slots inputs news left.values sh (sh'.drop left.values) := by
  have hsite : ∀ {slot s}, old[slot]? = some s → sh.site s = some (b, .input slot) :=
    fun hs => hsh.site_of_lastIn hp ((hold _).symm.trans hs)
  have hleft : ∀ s ∈ left.values, ∃ role, sh.site s = some (b, role) := by
    intro s hs
    obtain ⟨slot, -, hget⟩ := h.mem_values.1 hs
    exact ⟨_, hsite hget⟩
  have hgrown := h.grown.turned hsh.bounded
  constructor
  · have hdropped : Shape.Turned b [] left.values sh' (sh'.drop left.values) :=
      Shape.turned_drop fun s hs => (hleft s hs).imp fun _ hs => hgrown.kept hs List.not_mem_nil
    have hturned := hgrown.trans hdropped hsh.bounded hleft
    rwa [List.append_nil] at hturned
  · refine Eq.trans (List.map_congr_left fun s hs => ?_) h.seats
    exact if_neg (h.not_mem_values hsh.bounded hsite hs)
  · exact h.news_mem
  · intro s
    simp only [h.mem_values, hold]
  · exact fun slot hslot s hs => h.keeps ((hold slot).trans hs) hslot

/-- What was plugged into an input that is dropped is reported. -/
theorem ends_reseat (h : g.shape.Anchored) {p : Ports} (hp : g.shape.ports b = some p)
    (ins : List (String × Ty)) :
    Ends (inputsBySlot p.inputs) g (fun old g₀ => Ends (reuseInputs b old ins) g₀ (fun r g₁ =>
      Ends (dropInputs r.2.values) g₁ (fun detached g₂ => ∃ news,
        Shape.Reseated b p (ins.map (·.1)) r.1 news r.2.values g.shape g₂.shape ∧
        ∀ s ∈ r.2.values, ∀ d c role, g.shape.peer s = some d →
          g.shape.site d = some (c, role) → c ∈ detached) fun _ => False) fun _ => False)
      fun _ => False := by
  refine (ends_inputsBySlot_last fun s hs => h.input hp hs).imp (fun old g₀ hended => ?_)
    fun _ => id
  obtain ⟨rfl, hold⟩ := hended
  have hsite : ∀ {slot s}, old[slot]? = some s → g₀.shape.site s = some (b, .input slot) :=
    fun hs => h.site_of_lastIn hp ((hold _).symm.trans hs)
  refine (ends_reuseInputs h.bounded hsite).imp (fun r g₁ hended => ?_) fun _ => id
  obtain ⟨news, hreused⟩ := hended
  have hreseated := hreused.reseated h hp hold
  have hgrown := hreused.grown.turned h.bounded
  have hlive : ∀ {s r}, g₀.shape.site s = some r → g₁.shape.site s = some r :=
    fun hs => hgrown.kept hs List.not_mem_nil
  refine (ends_dropInputs (hgrown.linked h.toLinked) (hreused.nodup_values hsite)
    fun s hs => ?_).imp (fun detached g₂ hended => ?_) fun _ => id
  · obtain ⟨slot, hs⟩ := hreseated.site_of_gone h hp hs
    exact ⟨_, hlive hs⟩
  obtain ⟨hg₂, hdetached⟩ := hended
  refine ⟨news, hg₂ ▸ hreseated, fun s hs d c role hd hc => ?_⟩
  have hpeer : g₁.shape.peer s = some d :=
    hgrown.peer.2 ⟨hd, List.not_mem_nil, List.not_mem_nil⟩
  refine hdetached s hs d c role hpeer (fun hmem => ?_) (hlive hc)
  -- the other end of a link of an input is an output
  obtain ⟨slot, hin⟩ := hreseated.site_of_gone h hp hs
  obtain ⟨slot', hin'⟩ := hreseated.site_of_gone h hp hmem
  rcases h.joins hd with ⟨_, _, _, hs', -⟩ | ⟨_, _, _, -, hd'⟩
  · cases hin.symm.trans hs'
  · cases hin'.symm.trans hd'

theorem ends_rebuild (h : g.shape.Anchored) {p : Ports} (hp : g.shape.ports b = some p)
    (layout : Layout) :
    Ends (replaceSockets b layout) g (fun detached g' => ∃ p' news gone,
      Rebuilds b p p' layout detached g.shape g'.shape news gone) fun _ => False := by
  obtain ⟨block, hblock, rfl⟩ := shape_ports_eq_some.1 hp
  rw [replaceSockets]
  simp only [ends_bind, ends_ask, Graph.block, hblock]
  refine (ends_reseat h hp layout.inputs).imp (fun old g₀ hended => hended.imp
    (fun r g₁ hended => hended.imp (fun detached g₂ hended => ?_) fun _ => id) fun _ => id)
    fun _ => id
  obtain ⟨news, hseated, hreport⟩ := hended
  have hnot : ∀ {s c}, g.shape.site s = some (c, .output) → s ∉ r.2.values :=
    hseated.not_mem_gone h hp
  refine (ends_replaceOutput (hseated.turned.linked h.toLinked) (hseated.turned.bounded h.bounded)
    (hseated.output h hp) layout.output).imp (fun r' g₃ hended => ?_) fun _ => id
  obtain ⟨newsOut, goneOut, hturned, hsome, hnewsOut, hgoneOut, hout, hself⟩ := hended
  have houtSite : ∀ s ∈ goneOut, g.shape.site s = some (b, .output) := fun s hs =>
    (h.output hp).1 ((hgoneOut s).1 hs).2
  have hall := hseated.turned.trans hturned h.bounded fun s hs => ⟨_, houtSite s hs⟩
  obtain ⟨block', hblock', hports⟩ := shape_ports_eq_some.1 ((congrFun hall.ports b).trans hp)
  simp only [updateBlock, ends_bind, ends_ask, Graph.block, hblock', ends_modify, ends_pure]
  refine ⟨⟨block'.kind, r'.1, r.1⟩, news ++ newsOut, r.2.values ++ goneOut, ?_⟩
  rw [shape_modifyBlock_ports hblock']
  constructor
  · refine ⟨hall.setPorts _, fun s hs => ?_, hout, ?_⟩
    · rcases List.mem_append.1 hs with hs | hs
      · exact List.mem_append_right _ (hseated.news_mem s hs)
      · exact List.mem_append_left _ (Option.mem_toList.2 (hnewsOut s hs))
    · refine Eq.trans (List.map_congr_left fun s hs => ?_) hseated.seats
      obtain ⟨slot, -, hin⟩ := hseated.seats.exists_slot hs
      rw [hin]
      refine hturned.kept hin fun hgone => ?_
      cases ((hseated.output h hp).1 ((hgoneOut s).1 hgone).2).symm.trans hin
  · exact (Ports.mk.inj hports).1
  · exact hsome
  · intro s
    rw [List.mem_append, hseated.mem_gone, hgoneOut]
  · exact hseated.reused
  · intro s hs slot d c role hin hd hc
    rcases List.mem_append.1 hs with hs | hs
    · exact List.mem_append_left _ (hreport s hs d c role hd hc)
    · cases hin.symm.trans (houtSite s hs)
  · intro s hs d hs' hd
    have hsOut := (List.mem_append.1 hs).resolve_left (hnot hs')
    -- an input of the block itself may have been dropped, into which its output was plugged
    by_cases hmem : d ∈ r.2.values
    · exact List.mem_append_left _ (hreport d hmem s b _ (h.symm hd) hs')
    · exact List.mem_append_right _
        (hself s hsOut d (hseated.turned.peer.2 ⟨hd, hnot hs', hmem⟩))

namespace Rebuilds

variable {sh sh' : Shape} {p p' : Ports} {layout : Layout} {detached : List BlockId}
  {news gone : List SocketId} (h : Rebuilds b p p' layout detached sh sh' news gone)

include h

/-- A block that lists all that is on it, in different slots, does so afterwards. -/
theorem mem_sockets (hdistinct : (p.inputs.map sh.slot).Nodup)
    (hlisted : ∀ {s slot}, sh.site s = some (b, .input slot) → s ∈ p.inputs) {s : SocketId}
    {role : Role} (hs : sh'.site s = some (b, role)) : s ∈ p'.sockets := by
  cases role with
  | output => exact List.mem_append_left _ (Option.mem_toList.2 (h.rebuilt.output.2 hs))
  | input slot =>
      by_cases hnew : s ∈ news
      · exact h.rebuilt.came s hnew
      obtain ⟨hs, hkept⟩ := h.rebuilt.turned.old hnew hs
      replace hs : sh.site s = some (b, .input slot) := hs
      have hlast : sh.lastIn p.inputs slot = some s := by
        refine (Shape.lastIn_eq_some_iff hdistinct).2 ⟨hlisted hs, ?_⟩
        rw [Shape.slot, hs]
        rfl
      refine List.mem_append_right _ (h.reused slot ?_ s hlast)
      by_contra hslot
      exact hkept ((h.mem_gone s).2 (.inl ⟨slot, hslot, hlast⟩))

variable (hsh : sh.Wired) (hp : sh.ports b = some p)

include hsh hp

/-- Where a block lists each input under a slot of its own, those whose slots the layout has are
kept. -/
theorem not_mem_gone {s : SocketId} {slot : String} (hs : sh.site s = some (b, .input slot))
    (hslot : slot ∈ layout.inputs.map (·.1)) : s ∉ gone := by
  rw [h.mem_gone]
  rintro (⟨slot', hslot', hlast⟩ | ⟨-, hout⟩)
  · obtain ⟨-, hs'⟩ := Shape.of_lastIn hlast
    rw [Shape.slot, hs] at hs'
    exact hslot' (Option.some.inj hs' ▸ hslot)
  · cases hs.symm.trans ((hsh.lists hp).output hout)

/-- A block that keeps its output, or still has none, has new inputs and no other ports. -/
theorem eq_inputs (hout : layout.output.isSome = p.output.isSome) :
    p' = { p with inputs := p'.inputs } := by
  have houtput : p'.output = p.output := by
    cases ho : p.output with
    | none =>
        have hnone := h.output.trans hout
        rw [ho] at hnone
        exact Option.not_isSome_iff_eq_none.1 (by simp [hnone])
    | some o =>
        have hsite := (hsh.lists hp).output ho
        refine h.rebuilt.output.2 (h.rebuilt.turned.kept hsite fun hgone => ?_)
        rcases (h.mem_gone o).1 hgone with ⟨slot, -, hlast⟩ | ⟨hnone, -⟩
        · obtain ⟨slot', hin⟩ := (hsh.lists hp).input (Shape.of_lastIn hlast).1
          cases hsite.symm.trans hin
        · rw [hnone, ho] at hout
          cases hout
  have hkind := h.kind
  cases p'
  cases hkind
  cases houtput
  rfl

theorem refit (hout : layout.output.isSome = p.output.isSome) :
    Shape.Refit b p p'.inputs (layout.inputs.map (·.1)) sh sh' := by
  have hturned := h.rebuilt.turned
  have heq := h.eq_inputs hsh hp hout
  constructor
  · rw [hturned.ports, ← heq]
  · exact hturned.nextBlock
  · exact hturned.le
  · exact h.rebuilt.seats
  · intro s slot hs
    have hlisted : ∀ {s slot}, sh.site s = some (b, .input slot) → s ∈ p.inputs :=
      fun hs => (hsh.lists hp).mem_inputs.2 ⟨_, hs⟩
    have hmem := h.mem_sockets (hsh.lists hp).distinct hlisted hs
    refine (List.mem_append.1 hmem).resolve_left fun hout' => ?_
    cases hs.symm.trans (h.rebuilt.output.1 (Option.mem_toList.1 hout'))
  · intro s slot hs
    by_cases hnew : s ∈ news
    · exact .inr ⟨(hturned.fresh s hnew).1, (hturned.fresh s hnew).2.1⟩
    · exact .inl (hturned.old hnew hs).1
  · exact fun hslot hs => hturned.kept hs (h.not_mem_gone hsh hp hs hslot)
  · rintro s c role (hc | rfl)
    · exact hturned.site_of_ne hc
    · by_cases hc : c = b
      · subst hc
        rw [← h.rebuilt.output, heq]
        exact (hsh.lists hp).output_eq_some
      · exact hturned.site_of_ne hc
  · intro s d
    rw [hturned.peer]
    refine and_congr_right fun hd => ?_
    obtain ⟨r, hr⟩ := hsh.site_of_peer hd
    obtain ⟨r', hr'⟩ := hsh.site_of_peer (hsh.symm hd)
    exact and_congr (hturned.not_mem_gone_iff hsh.bounded hr')
      (hturned.not_mem_gone_iff hsh.bounded hr)

end Rebuilds

theorem ends_replaceSockets (h : g.shape.Wired) {p : Ports} (hp : g.shape.ports b = some p)
    {layout : Layout} (hout : layout.output.isSome = p.output.isSome) :
    Ends (replaceSockets b layout) g
      (fun _ g' => ∃ inputs, Shape.Refit b p inputs (layout.inputs.map (·.1)) g.shape g'.shape)
      fun _ => False := by
  refine (ends_rebuild h.anchored hp layout).imp (fun _ g' hended => ?_) fun _ => id
  obtain ⟨p', news, gone, hrebuilds⟩ := hended
  exact ⟨p'.inputs, hrebuilds.refit h hp hout⟩

end GraphM

end Plugboard
