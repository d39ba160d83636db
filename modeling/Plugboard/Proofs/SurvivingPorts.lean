import Plugboard.Proofs.Coherence

/-!
# What survives an edit

An edit of a block may take slots from its kind, and makes many other blocks anew besides. All the
same, the ports in these slots are the only ones that are gone afterwards: every other port is the
socket that it was, and what is plugged into it stays plugged in.
-/

namespace Plugboard

open Shape Workspace

/-- The kind gives up the slots `lost` for another kind, and no more than these. -/
structure BlockKind.Sheds (kind : BlockKind) (lost : List String) (kind' : BlockKind) : Prop where
  subset : lost ⊆ kind.slots
  mem_iff : ∀ {slot}, slot ∈ kind.slots → (slot ∈ kind'.slots ↔ slot ∉ lost)

namespace Command

/-- The block whose ports a command adds to or takes from, or whose parameter it renames. A command
that moves what is plugged into calls is none of these. -/
def edited? : Command → Option BlockId
  | .renameParameter b _ _ | .addParameter b _ | .addGenerator b _ | .removeGenerator b _
  | .addGuard b | .removeGuard b | .setItems b _ => some b
  | _ => none

/-- The slots that a block of a kind loses to a command: that of a variable, that of the last
guard, or those of the last items. -/
def lostSlots : Command → BlockKind → List String
  | .removeGenerator _ name, _ => [Slot.generator name]
  | .removeGuard _, .comprehension _ guards => [Slot.guard (guards - 1)]
  | .setItems _ items, .list old => (List.range' items (old - items)).map Slot.item
  | _, _ => []

end Command

namespace BlockKind

variable {kind kind' : BlockKind}

theorem Sheds.of_subset (h : kind.slots ⊆ kind'.slots) : kind.Sheds [] kind' :=
  ⟨List.nil_subset _, fun hslot => by simp [h hslot]⟩

theorem mem_slots_comprehension {vars : List String} {guards : Nat} {slot : String} :
    slot ∈ (comprehension vars guards).slots ↔ (∃ v ∈ vars, slot = Slot.generator v) ∨
      (∃ i < guards, slot = Slot.guard i) ∨ slot = Slot.yielded := by
  simp only [slots, List.mem_append, List.mem_map, List.mem_range, List.mem_singleton, or_assoc,
    eq_comm]

theorem mem_slots_list {items : Nat} {slot : String} :
    slot ∈ (list items).slots ↔ ∃ i < items, slot = Slot.item i := by
  simp only [slots, List.mem_map, List.mem_range, eq_comm]

theorem sheds_of_addGenerator {name : String} (h : addGenerator name kind = .ok kind') :
    kind.Sheds [] kind' := by
  cases kind with
  | comprehension vars guards =>
      obtain ⟨parts, hparts, h⟩ := bind_eq_ok.1 h
      dsimp only at hparts
      split at hparts
      · cases hparts
      · cases hparts
        cases h
        refine .of_subset fun slot hslot => ?_
        rw [mem_slots_comprehension] at hslot ⊢
        exact hslot.imp_left fun ⟨v, hv, hslot⟩ => ⟨v, List.mem_append_left _ hv, hslot⟩
  | _ => cases h

theorem sheds_of_removeGenerator {name : String} (h : removeGenerator name kind = .ok kind')
    (hkind : kind.Unrepeated) : kind.Sheds [Slot.generator name] kind' := by
  cases kind with
  | comprehension vars guards =>
      obtain ⟨parts, hparts, h⟩ := bind_eq_ok.1 h
      dsimp only at hparts
      split at hparts
      · rename_i hname
        cases hparts
        cases h
        refine ⟨?_, fun {slot} hslot => ?_⟩
        · rw [List.cons_subset, and_iff_left (List.nil_subset _), mem_slots_comprehension]
          exact .inl ⟨name, by simpa using hname, rfl⟩
        · rw [List.mem_singleton]
          rw [mem_slots_comprehension] at hslot ⊢
          rcases hslot with ⟨v, hv, rfl⟩ | ⟨i, hi, rfl⟩ | rfl
          · simp only [Slot.generator_ne_guard, Slot.generator_ne_yielded,
              Slot.generator_injective.eq_iff, List.Nodup.mem_erase_iff hkind, and_false,
              exists_false, or_false, exists_eq_right', hv, and_true]
          · exact iff_of_true (.inr (.inl ⟨i, hi, rfl⟩)) (Slot.generator_ne_guard name i).symm
          · exact iff_of_true (.inr (.inr rfl)) (Slot.generator_ne_yielded name).symm
      · cases hparts
  | _ => cases h

theorem sheds_of_addGuard (h : addGuard kind = .ok kind') : kind.Sheds [] kind' := by
  cases kind with
  | comprehension vars guards =>
      cases h
      refine .of_subset fun slot hslot => ?_
      rw [mem_slots_comprehension] at hslot ⊢
      exact hslot.imp_right (.imp_left fun ⟨i, hi, hslot⟩ =>
        ⟨i, hi.trans (Nat.lt_succ_self _), hslot⟩)
  | _ => cases h

theorem sheds_of_removeGuard {b : BlockId} (h : removeGuard kind = .ok kind') :
    kind.Sheds ((Command.removeGuard b).lostSlots kind) kind' := by
  cases kind with
  | comprehension vars guards =>
      cases guards with
      | zero => cases h
      | succ last =>
          cases h
          refine ⟨?_, fun {slot} hslot => ?_⟩
          · rw [Command.lostSlots, List.cons_subset, and_iff_left (List.nil_subset _),
              mem_slots_comprehension]
            exact .inr (.inl ⟨last, Nat.lt_succ_self _, rfl⟩)
          · rw [Command.lostSlots, List.mem_singleton, Nat.add_sub_cancel]
            rw [mem_slots_comprehension] at hslot ⊢
            rcases hslot with ⟨v, hv, rfl⟩ | ⟨i, hi, rfl⟩ | rfl
            · exact iff_of_true (.inl ⟨v, hv, rfl⟩) (Slot.generator_ne_guard v last)
            · simp only [(Slot.generator_ne_guard _ _).symm, Slot.guard_ne_yielded,
                Slot.guard_injective.eq_iff, and_false, exists_false, or_false, false_or,
                exists_eq_right']
              omega
            · exact iff_of_true (.inr (.inr rfl)) (Slot.guard_ne_yielded last).symm
  | _ => cases h

theorem sheds_of_setItems {b : BlockId} {items : Nat} (h : setItems items kind = .ok kind') :
    kind.Sheds ((Command.setItems b items).lostSlots kind) kind' := by
  cases kind with
  | list old =>
      cases h
      have hlost : ∀ {slot}, slot ∈ (Command.setItems b items).lostSlots (.list old) ↔
          ∃ i, items ≤ i ∧ i < old ∧ slot = Slot.item i := by
        intro slot
        simp only [Command.lostSlots, List.mem_map, List.mem_range'_1, eq_comm (b := slot)]
        refine exists_congr fun i => ?_
        rw [← and_assoc]
        exact and_congr_left fun _ => by omega
      refine ⟨fun slot hslot => ?_, fun {slot} hslot => ?_⟩
      · obtain ⟨i, -, hi, rfl⟩ := hlost.1 hslot
        exact mem_slots_list.2 ⟨i, hi, rfl⟩
      · obtain ⟨i, hi, rfl⟩ := mem_slots_list.1 hslot
        rw [hlost, mem_slots_list]
        simp only [Slot.item_injective.eq_iff, exists_eq_right']
        constructor
        · rintro hlt ⟨j, hle, -, rfl⟩
          omega
        · intro hout
          exact Nat.lt_of_not_le fun hle => hout ⟨i, hle, hi, rfl⟩
  | _ => cases h

end BlockKind

/-- In `g'` the ports of `b` in the slots `lost` are gone, and every other port of `g` is still
there and plugged in where it was. -/
structure Graph.LosesOnly (b : BlockId) (lost : List String) (g g' : Graph) : Prop where
  /-- No block is added or removed. -/
  contains : ∀ c, g'.contains c = g.contains c
  /-- Outputs are the sockets that they were. -/
  output : ∀ {c : BlockId} {block : Block}, g.blocks[c]? = some block →
    ∃ block', g'.blocks[c]? = some block' ∧ block'.output = block.output
  /-- An input in a slot that is not lost is the socket that it was. -/
  input : ∀ {c : BlockId} {slot : String} {s : SocketId}, g.inputNamed c slot = .ok s →
    (c = b → slot ∉ lost) → g'.inputNamed c slot = .ok s
  /-- There was an input in every slot that is lost, and there is none afterwards. -/
  removed : ∀ slot ∈ lost, ∃ s, g.inputNamed b slot = .ok s ∧ g'.sockets[s]? = none ∧
    ∀ s', g'.inputNamed b slot ≠ .ok s'
  /-- The links are those from before but for what was plugged in there. -/
  links : ∀ o i, (o, i) ∈ g'.linksWithin g'.blockSet ↔ (o, i) ∈ g.linksWithin g.blockSet ∧
    ∀ slot ∈ lost, g.inputNamed b slot ≠ .ok i
  /-- What was plugged in there is plugged into nothing. -/
  top : ∀ {slot : String} {s : SocketId} {c : BlockId}, slot ∈ lost →
    g.inputNamed b slot = .ok s → g.pluggedBlock s = .ok (some c) → g'.isTop c

namespace Shape

/-- The slots `lost` of `b` are all that blocks lose to a change of kinds. -/
structure Loses (sh : Shape) (f : Rekinding) (b : BlockId) (lost : List String) : Prop where
  had : ∀ slot ∈ lost, ∃ p, sh.ports b = some p ∧ slot ∈ p.kind.slots
  mem_iff : ∀ {c p slot}, sh.ports c = some p → slot ∈ p.kind.slots →
    (slot ∈ (f c p.kind).slots ↔ (c = b → slot ∉ lost))

variable {sh sh' : Shape} {f : Rekinding} {b : BlockId} {lost : List String}

theorem Widens.loses (h : sh.Widens f) (b : BlockId) : sh.Loses f b [] where
  had _ hslot := (List.not_mem_nil hslot).elim
  mem_iff hp hslot := iff_of_true (h _ _ hp hslot) fun _ => List.not_mem_nil

theorem loses_of_sheds {p : Ports} (hp : sh.ports b = some p) {kind : BlockKind}
    (h : p.kind.Sheds lost kind) :
    sh.Loses (fun c kind' => if c = b then kind else kind') b lost where
  had slot hslot := ⟨p, hp, h.subset hslot⟩
  mem_iff {c q slot} hq hslot := by
    by_cases hc : c = b
    · subst hc
      cases hp.symm.trans hq
      rw [if_pos rfl, h.mem_iff hslot]
      exact ⟨fun hkept _ => hkept, fun hkept => hkept rfl⟩
    · rw [if_neg hc]
      exact iff_of_true hslot fun hcb => (hc hcb).elim

namespace Loses

variable (h : sh.Loses f b lost) (hsh : sh.Regular ∅) (hsh' : sh'.Regular ∅)
  (hpruned : (sh.rekind f).Pruned sh')

include h hsh hsh' hpruned

/-- An input is still there unless its slot is lost. -/
theorem exists_site_iff {s : SocketId} {c : BlockId} {slot : String}
    (hs : sh.site s = some (c, .input slot)) :
    (∃ r, sh'.site s = some r) ↔ (c = b → slot ∉ lost) := by
  obtain ⟨p, hp⟩ := hsh.owner hs
  have hp' : (sh.rekind f).ports c = some { p with kind := f c p.kind } := by
    simp [rekind, hp]
  rw [hpruned.exists_site_iff hsh.bounded hsh' hp' hs]
  exact h.mem_iff hp (hsh.mem_slots hp False.elim hs)

theorem site_eq {s : SocketId} {c : BlockId} {slot : String}
    (hs : sh.site s = some (c, .input slot)) (hslot : c = b → slot ∉ lost) :
    sh'.site s = some (c, .input slot) := by
  obtain ⟨r, hr⟩ := (h.exists_site_iff hsh hsh' hpruned hs).2 hslot
  exact hpruned.site_eq hsh.bounded hs hr ▸ hr

omit hsh in
/-- No input goes by a lost slot afterwards. -/
theorem site_ne {slot : String} (hslot : slot ∈ lost) (s : SocketId) :
    sh'.site s ≠ some (b, .input slot) := by
  intro hs
  obtain ⟨p, hp, hmem⟩ := h.had slot hslot
  have hp' : (sh.rekind f).ports b = some { p with kind := f b p.kind } := by
    simp [rekind, hp]
  obtain ⟨p', hp', hkind⟩ := hpruned.exists_ports hp'
  have hmem' := hsh'.mem_slots hp' False.elim hs
  rw [hkind] at hmem'
  exact (h.mem_iff hp hmem).1 hmem' rfl hslot

theorem linked_iff {o i : SocketId} :
    (∃ c slot, sh'.site i = some (c, .input slot) ∧ sh'.peer i = some o) ↔
      ∃ c slot, sh.site i = some (c, .input slot) ∧ sh.peer i = some o ∧ (c = b → slot ∉ lost) := by
  constructor
  · rintro ⟨c, slot, hi, hpeer⟩
    have hold := (hpruned.peer.1 hpeer).1
    obtain ⟨r, hr⟩ := hsh.site_of_peer (hsh.symm hold)
    obtain rfl := hpruned.site_eq hsh.bounded hr hi
    exact ⟨c, slot, hr, hold, (h.exists_site_iff hsh hsh' hpruned hr).1 ⟨_, hi⟩⟩
  · rintro ⟨c, slot, hi, hpeer, hkept⟩
    have hi' := h.site_eq hsh hsh' hpruned hi hkept
    rcases hsh.joins hpeer with ⟨_, _, _, hout, -⟩ | ⟨_, d, _, -, hout⟩
    · cases hi.symm.trans hout
    · exact ⟨c, slot, hi', hpruned.peer.2 ⟨hpeer, ⟨_, hi'⟩, ⟨_, hpruned.output.2 hout⟩⟩⟩

/-- What was plugged into a lost slot is plugged into nothing. -/
theorem peer_eq_none {s o : SocketId} {slot : String} (hslot : slot ∈ lost)
    (hs : sh.site s = some (b, .input slot)) (hpeer : sh.peer s = some o) : sh'.peer o = none := by
  cases hd : sh'.peer o with
  | none => rfl
  | some d =>
      obtain ⟨hold, -, hlive⟩ := hpruned.peer.1 hd
      cases hold.symm.trans (hsh.symm hpeer)
      exact ((h.exists_site_iff hsh hsh' hpruned hs).1 hlive rfl hslot).elim

end Loses

end Shape

namespace Graph

variable {g g' : Graph} {b : BlockId} {lost : List String}

theorem ports_of_inputNamed {slot : String} {s : SocketId} (h : g.inputNamed b slot = .ok s) :
    ∃ p, g.shape.ports b = some p := by
  obtain ⟨block, hblock, -⟩ := bind_eq_ok.1 h
  exact ⟨_, shape_ports_eq_some.2 ⟨block, block_eq_ok.1 hblock, rfl⟩⟩

theorem site_of_inputNamed (hg : g.shape.Wired) {slot : String} {s : SocketId}
    (h : g.inputNamed b slot = .ok s) : g.shape.site s = some (b, .input slot) := by
  obtain ⟨p, hp⟩ := ports_of_inputNamed h
  exact (inputNamed_eq_ok hg hp).1 h

/-- The links of a canvas are those into inputs. -/
theorem mem_links_iff (hg : g.shape.Wired) {o i : SocketId} :
    (o, i) ∈ g.linksWithin g.blockSet ↔
      ∃ c slot, g.shape.site i = some (c, .input slot) ∧ g.shape.peer i = some o := by
  rw [mem_linksWithin]
  refine exists_congr fun c => exists_congr fun slot => and_iff_right_of_imp fun h => ?_
  exact mem_blockSet.2 (hg.owner h.1)

theorem losesOnly_of_pruned (hg : g.shape.Regular ∅) (hg' : g'.shape.Regular ∅) {f : Rekinding}
    (hpruned : (g.shape.rekind f).Pruned g'.shape) (h : g.shape.Loses f b lost) :
    LosesOnly b lost g g' := by
  have hlive : ∀ {c}, (∃ p, g'.shape.ports c = some p) ↔ ∃ p, g.shape.ports c = some p :=
    hpruned.live_iff.trans exists_ports_rekind
  constructor
  case contains =>
    intro c
    rw [Bool.eq_iff_iff, contains_iff, contains_iff, hlive]
  case output =>
    intro c block hblock
    have hp := shape_ports_eq_some.2 ⟨block, hblock, rfl⟩
    obtain ⟨p', hp'⟩ := hlive.2 ⟨_, hp⟩
    obtain ⟨block', hblock', rfl⟩ := shape_ports_eq_some.1 hp'
    refine ⟨block', hblock', Option.ext fun s => ?_⟩
    exact ((hg'.lists hp').output_eq_some.trans hpruned.output).trans
      (hg.lists hp).output_eq_some.symm
  case input =>
    intro c slot s hs hslot
    obtain ⟨p', hp'⟩ := hlive.2 (ports_of_inputNamed hs)
    refine (inputNamed_eq_ok hg'.toWired hp').2 ?_
    exact h.site_eq hg hg' hpruned (site_of_inputNamed hg.toWired hs) hslot
  case removed =>
    intro slot hslot
    obtain ⟨p, hp, hmem⟩ := h.had slot hslot
    obtain ⟨s, hs⟩ := hg.exists_site hp False.elim hmem
    refine ⟨s, (inputNamed_eq_ok hg.toWired hp).2 hs, ?_, fun s' hs' => ?_⟩
    · refine Option.eq_none_iff_forall_ne_some.2 fun socket hsocket => ?_
      have hlive := shape_site_eq_some.2 ⟨socket, hsocket, rfl⟩
      exact (h.exists_site_iff hg hg' hpruned hs).1 ⟨_, hlive⟩ rfl hslot
    · exact h.site_ne hg' hpruned hslot s' (site_of_inputNamed hg'.toWired hs')
  case links =>
    intro o i
    rw [mem_links_iff hg'.toWired, h.linked_iff hg hg' hpruned, mem_links_iff hg.toWired]
    constructor
    · rintro ⟨c, slot, hi, hpeer, hkept⟩
      refine ⟨⟨c, slot, hi, hpeer⟩, fun slot' hslot' hs => ?_⟩
      cases hi.symm.trans (site_of_inputNamed hg.toWired hs)
      exact hkept rfl hslot'
    · rintro ⟨⟨c, slot, hi, hpeer⟩, hkept⟩
      refine ⟨c, slot, hi, hpeer, ?_⟩
      rintro rfl hslot
      obtain ⟨p, hp⟩ := hg.owner hi
      exact hkept slot hslot ((inputNamed_eq_ok hg.toWired hp).2 hi)
  case top =>
    intro slot s c hslot hs hplugged
    have hsite := site_of_inputNamed hg.toWired hs
    rw [pluggedBlock_eq hg.toWired hsite, Except.ok.injEq] at hplugged
    obtain ⟨o, role, hpeer, ho⟩ := guest_eq_some.1 hplugged
    obtain ⟨p', hp'⟩ := hlive.2 (hg.owner ho)
    -- the output is the one that was plugged in there
    have hout : ∀ d, p'.output = some d → d = o := by
      intro d hd
      have hd := hpruned.output.1 ((hg'.lists hp').output hd)
      rcases hg.joins hpeer with ⟨_, _, _, hs', -⟩ | ⟨_, _, _, -, ho'⟩
      · cases hsite.symm.trans hs'
      · cases ho.symm.trans ho'
        obtain ⟨p, hp⟩ := hg.owner ho
        have hlists := hg.lists hp
        exact Option.some.inj ((hlists.output_eq_some.2 hd).symm.trans (hlists.output_eq_some.2 ho))
    rw [isTop, parent_eq hg'.toWired hp']
    cases hd : p'.output with
    | none => rfl
    | some d =>
        obtain rfl := hout d hd
        rw [Option.bind_some, Shape.guest, h.peer_eq_none hg hg' hpruned hslot hsite hpeer]
        rfl

end Graph

/-- Some change of kinds takes the slots `lost` from `b`, and blocks are made anew accordingly. -/
def Workspace.Trims (b : BlockId) (lost : List String) (ws ws' : Workspace) : Prop :=
  ws'.Settled ∅ ∧ ∃ f, ws.main.shape.Loses f b lost ∧ ws.Reshaped f ws'

namespace WorkspaceM

variable {ws : Workspace}

theorem ends_edit_trims (h : ws.Settled ∅) (b : BlockId) {f : BlockKind → Except String BlockKind}
    {lost : BlockKind → List String}
    (hadmits : ∀ {kind kind'}, f kind = .ok kind' → Admits kind kind')
    (hsheds : ∀ {kind kind'}, f kind = .ok kind' → kind.Unrepeated →
      kind.Sheds (lost kind) kind') :
    Ends (edit b f) ws (fun _ ws' => ∃ p, ws.main.shape.ports b = some p ∧
      Trims b (lost p.kind) ws ws') (· = ws) := by
  refine (ends_edit h b hadmits).imp (fun _ ws' hended => ?_) fun _ => id
  obtain ⟨hws', p, kind, hp, hkind, hreshaped⟩ := hended
  have hloses := loses_of_sheds hp (hsheds hkind (h.1.1.sound hp).unrepeated)
  exact ⟨p, hp, hws', _, hloses, hreshaped⟩

theorem ends_perform_trims (h : ws.Settled ∅) {command : Command} {b : BlockId}
    (hb : command.edited? = some b) :
    Ends (perform command) ws (fun _ ws' => ∃ p, ws.main.shape.ports b = some p ∧
      Trims b (command.lostSlots p.kind) ws ws') (· = ws) := by
  have hwidens : ∀ {x : WorkspaceM Report} {b : BlockId},
      Ends x ws (fun _ ws' => ws'.Settled ∅ ∧ ∃ p f, ws.main.shape.ports b = some p ∧
        ws.main.shape.Widens f ∧ ws.Reshaped f ws') (· = ws) →
      Ends x ws (fun _ ws' => ∃ p, ws.main.shape.ports b = some p ∧ Trims b [] ws ws')
        (· = ws) := fun hx =>
    hx.imp (fun _ _ ⟨hws', p, f, hp, hwidens, hreshaped⟩ =>
      ⟨p, hp, hws', f, hwidens.loses _, hreshaped⟩) fun _ => id
  cases command with
  | renameParameter b old new =>
      cases hb
      exact ends_map.2 (hwidens (ends_renameParameter h b old new))
  | addParameter b name =>
      cases hb
      exact ends_map.2 (hwidens (ends_addParameter h b name))
  | addGenerator b name =>
      cases hb
      exact ends_map.2 (ends_edit_trims h b BlockKind.admits_of_addGenerator
        fun hkind _ => BlockKind.sheds_of_addGenerator hkind)
  | removeGenerator b name =>
      cases hb
      exact ends_map.2 (ends_edit_trims h b BlockKind.admits_of_removeGenerator
        BlockKind.sheds_of_removeGenerator)
  | addGuard b =>
      cases hb
      exact ends_map.2 (ends_edit_trims h b BlockKind.admits_of_addGuard
        fun hkind _ => BlockKind.sheds_of_addGuard hkind)
  | removeGuard b =>
      cases hb
      exact ends_map.2 (ends_edit_trims h b BlockKind.admits_of_removeGuard
        fun hkind _ => BlockKind.sheds_of_removeGuard hkind)
  | setItems b items =>
      cases hb
      exact ends_map.2 (ends_edit_trims h b BlockKind.admits_of_setItems
        fun hkind _ => BlockKind.sheds_of_setItems hkind)
  | _ => cases hb

end WorkspaceM

namespace Workspace

variable {ws : Workspace}

/-- An edit of a block that succeeds takes from it the ports in the slots that it loses. No other
port is gone, no other link is cut, and nothing is done to the palette. -/
theorem Reachable.losesOnly (h : ws.Reachable Command.AddsUnrepeated) {command : Command}
    {b : BlockId} (hb : command.edited? = some b) (hok : (ws.perform command).1.isOk) :
    (∃ block, ws.main.blocks[b]? = some block ∧
      ws.main.LosesOnly b (command.lostSlots block.kind) (ws.after command).main) ∧
      (ws.after command).flyout = ws.flyout := by
  obtain ⟨-, p, hp, hws', f, hloses, hpruned, hflyout⟩ :=
    (WorkspaceM.ends_perform_trims h.settled hb).of_isOk hok
  obtain ⟨block, hblock, rfl⟩ := Graph.shape_ports_eq_some.1 hp
  exact ⟨⟨block, hblock, Graph.losesOnly_of_pruned h.settled.1.1 hws'.1.1 hpruned hloses⟩, hflyout⟩

set_option maxRecDepth 4000 in
/-- A list that is cut to one item sheds what was plugged into the second one. -/
theorem losesOnly_after_setItems :
    let ws := [.add .main (.list 2), .add .main (.list 0), .plug ⟨1⟩ ⟨0⟩ "ITEM1"].foldl after
      (ofSettings default)
    (ws.perform (.setItems ⟨0⟩ 1)).1.isOk ∧
      (∃ block, ws.main.blocks[(⟨0⟩ : BlockId)]? = some block ∧
        ws.main.LosesOnly ⟨0⟩ ((Command.setItems ⟨0⟩ 1).lostSlots block.kind)
          (ws.after (.setItems ⟨0⟩ 1)).main) ∧
      (ws.after (.setItems ⟨0⟩ 1)).flyout = ws.flyout :=
  have hok : (Workspace.perform _ (.setItems ⟨0⟩ 1)).1.isOk := by cbv
  ⟨hok, Reachable.losesOnly ((Reachable.start default).foldl
    (by simp [Command.AddsUnrepeated, BlockKind.Unrepeated])) rfl hok⟩

end Workspace

end Plugboard
