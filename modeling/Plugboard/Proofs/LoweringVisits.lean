import Plugboard.Proofs.ChosenNames
import Plugboard.Proofs.LoweredTrees

/-!
# What lowering visits

Lowering with a log of the blocks that it comes to. It comes to every block of the tree once, and
what it leaves open are the free inputs of these blocks, depth first. What a block is lowered to
carries the block's tag, and the variable of an open input that input's. The name of that variable
is not reserved, so variables and operators that the user calls so look like the open input.
-/

namespace Plugboard

open Relation Shape

theorem holeName_injective : Function.Injective holeName := by
  intro s d h
  have hindex := String.append_right_inj _ |>.1 h
  cases s
  cases d
  exact congrArg _ (Nat.repr_injective (String.append_right_inj _ |>.1 hindex))

namespace BlockKind

variable {tag : Tag}

theorem tag_call {args : List Term} (hargs : args ≠ []) (func : Term) :
    (call tag func args).tag = some tag := by
  induction args generalizing func with
  | nil => exact (hargs rfl).elim
  | cons arg args ih =>
      cases args with
      | nil => rfl
      | cons next args => exact ih (List.cons_ne_nil _ _) (.app func arg (some tag))

/-- The outermost node of a block's term is the block's, unless the block is a function without
parameters, which is its body. -/
theorem tag_assemble {kind : BlockKind} (hruns : kind.operands?.isSome)
    (hkind : ∀ name, kind ≠ .function name []) (part : String → Term) :
    (kind.assemble tag (kind.slots.map part)).tag = some tag := by
  cases kind with
  | operator name arity =>
      cases arity with
      | zero => rfl
      | succ arity =>
          rw [assemble_operator]
          exact tag_call (by simp [slots]) _
  | apply => exact tag_call (List.cons_ne_nil _ _) _
  | list items =>
      cases items with
      | zero => rfl
      | succ items =>
          rw [slots, List.range_succ_eq_map]
          exact tag_call (List.cons_ne_nil _ _) _
  | comprehension vars guards =>
      rw [assemble_comprehension]
      cases vars with
      | cons v vars => exact tag_call (List.cons_ne_nil _ _) _
      | nil =>
          rw [comprehensionTerm, List.map_nil, List.zip_nil_left, List.foldr_nil]
          cases guards with
          | zero => rfl
          | succ guards =>
              rw [List.range_succ_eq_map]
              exact tag_call (List.cons_ne_nil _ _) _
  | cases typeName arms =>
      rw [assemble_cases]
      exact tag_call (List.cons_ne_nil _ _) _
  | function name params =>
      cases params with
      | nil => exact (hkind name rfl).elim
      | cons param params => rfl
  | literal | «variable» | lambda | localLet => rfl
  | data | statement => cases hruns

/-- The name of an open input is brought into a term only by what is called so. -/
theorem eq_of_brings_holeName {kind : BlockKind} {s : SocketId} (h : kind.Brings (holeName s)) :
    kind = .variable (holeName s) ∨ ∃ arity, kind = .operator (holeName s) arity := by
  have hprelude : ∀ {name}, name ∈ [Prelude.bindName, Prelude.guardName, Prelude.yieldName,
      Prelude.consName, Prelude.nilName] → holeName s ≠ name := by
    rintro _ hname rfl
    have hsome := Prelude.Within.isSome_lookup hname
    rw [Prelude.lookup_holeName] at hsome
    cases hsome
  cases kind
  case «variable» name => exact .inl (congrArg BlockKind.variable h)
  case operator name arity => exact .inr ⟨arity, congrArg (BlockKind.operator · arity) h⟩
  case list | comprehension =>
    refine (@hprelude (holeName s) ?_ rfl).elim
    simp only [Brings, List.mem_cons, List.not_mem_nil, or_false] at h ⊢
    tauto
  case cases typeName arms => exact (caseName_ne_holeName typeName s h.symm).elim
  all_goals exact h.elim

end BlockKind

/-- A lowered tree, and the blocks that were lowered for it with their terms, in the order in which
lowering has come to them. -/
structure Logged where
  lowered : Lowered
  log : List (BlockId × Term)

/-- The blocks in the log and the open inputs are those whose tags satisfy a predicate, each
once. -/
structure Logged.Covers (v : Logged) (under : Tag → Prop) : Prop where
  blocks : ∀ c, c ∈ v.log.map (·.1) ↔ under (.block c)
  holes : ∀ s, s ∈ v.lowered.holes ↔ under (.socket s)
  nodup_blocks : (v.log.map (·.1)).Nodup
  nodup_holes : v.lowered.holes.Nodup

namespace Graph

/-- As `lowerSlot`, with a log. -/
def lowerSlotLogged (g : Graph) (lowerChild : BlockId → Except Fault Logged) (b : BlockId)
    (slot : String) : Except Fault Logged := do
  let s ← g.inputNamed b slot
  match ← g.pluggedBlock s with
  | some child => lowerChild child
  | none => return ⟨⟨.var (holeName s) (some (.socket s)), [s]⟩, []⟩

/-- As `lowerBlock`, with a log. -/
def lowerBlockLogged (g : Graph) : Nat → BlockId → Except Fault Logged
  | 0, b => .error (.cycle b)
  | fuel + 1, b => do
      let block ← g.block b
      match block.kind.operands? with
      | none => throw (.notAnExpression b)
      | some runs =>
          let parts ← runs.mapM fun run => run.read (g.lowerSlotLogged (lowerBlockLogged g fuel) b)
          let parts := parts.flatten
          let term := block.kind.assemble (.block b) (parts.map (·.lowered.term))
          return ⟨⟨term, parts.flatMap (·.lowered.holes)⟩, (b, term) :: parts.flatMap (·.log)⟩

/-- The inputs from a block down that nothing is plugged into, depth first and in the order of the
inputs of each block, down to a depth of `fuel`. -/
def openInputs (g : Graph) : Nat → BlockId → List SocketId
  | 0, _ => []
  | fuel + 1, b =>
      match g.blocks[b]? with
      | none => []
      | some block => block.inputs.flatMap fun s =>
          match g.shape.guest s with
          | none => [s]
          | some child => openInputs g fuel child

variable {g : Graph} {b c : BlockId} {block : Block} {fuel : Nat}

theorem map_mapM {α β γ : Type} {f : α → Except Fault β} {f' : α → Except Fault γ} {k : β → γ}
    (h : ∀ a, (f a).map k = f' a) (xs : List α) : (xs.mapM f).map (List.map k) = xs.mapM f' := by
  induction xs with
  | nil => rfl
  | cons a as ih =>
      rw [List.mapM_cons, List.mapM_cons, ← h a, ← ih]
      cases f a with
      | error e => rfl
      | ok first => cases as.mapM f <;> rfl

/-- The log takes nothing away from lowering and adds nothing to it. -/
theorem map_lowerBlockLogged (g : Graph) (fuel : Nat) (b : BlockId) :
    (g.lowerBlockLogged fuel b).map Logged.lowered = g.lowerBlock fuel b := by
  induction fuel generalizing b with
  | zero => rfl
  | succ fuel ih =>
      have hslot : ∀ slot, (g.lowerSlotLogged (g.lowerBlockLogged fuel) b slot).map Logged.lowered =
          g.lowerSlot (g.lowerBlock fuel) b slot := fun slot => by
        rw [lowerSlotLogged, lowerSlot]
        cases g.inputNamed b slot with
        | error e => rfl
        | ok s =>
            change (g.pluggedBlock s >>= _).map _ = (g.pluggedBlock s >>= _)
            cases g.pluggedBlock s with
            | error e => rfl
            | ok child? =>
                cases child? with
                | none => rfl
                | some child => exact ih child
      have hread : ∀ run : SlotRun,
          (run.read (g.lowerSlotLogged (g.lowerBlockLogged fuel) b)).map (List.map Logged.lowered) =
            run.read (g.lowerSlot (g.lowerBlock fuel) b) := fun run => by
        rw [SlotRun.read_eq_mapM, SlotRun.read_eq_mapM]
        exact map_mapM hslot run.slots
      rw [lowerBlockLogged, lowerBlock]
      cases g.block b with
      | error e => rfl
      | ok block =>
          change Except.map _ (match block.kind.operands? with | none => _ | some runs => _) =
            match block.kind.operands? with | none => _ | some runs => _
          cases block.kind.operands? with
          | none => rfl
          | some runs =>
              simp only [← map_mapM hread runs]
              cases runs.mapM (fun run => run.read
                (g.lowerSlotLogged (g.lowerBlockLogged fuel) b)) with
              | error e => rfl
              | ok parts =>
                  change Except.ok _ = Except.ok _
                  simp [← List.map_flatten, List.flatMap_map, Function.comp_def]

theorem exists_parts_of_logged {v : Logged} (hv : g.lowerBlockLogged (fuel + 1) b = .ok v) :
    ∃ block, g.blocks[b]? = some block ∧ block.kind.operands?.isSome ∧
      ∃ part : String → Logged,
        (∀ slot ∈ block.kind.slots,
          g.lowerSlotLogged (g.lowerBlockLogged fuel) b slot = .ok (part slot)) ∧
        v.lowered.term = block.kind.assemble (.block b)
          (block.kind.slots.map fun slot => (part slot).lowered.term) ∧
        v.lowered.holes = (block.kind.slots.flatMap fun slot => (part slot).lowered.holes) ∧
        v.log = (b, v.lowered.term) :: block.kind.slots.flatMap fun slot => (part slot).log := by
  have : Nonempty Logged := ⟨⟨⟨default, []⟩, []⟩⟩
  rw [lowerBlockLogged] at hv
  obtain ⟨block, hblock, hv⟩ := bind_eq_ok.1 hv
  refine ⟨block, block_eq_ok.1 hblock, ?_⟩
  cases hruns : block.kind.operands? with
  | none =>
      rw [hruns] at hv
      cases hv
  | some runs =>
      rw [hruns] at hv
      obtain ⟨parts, hparts, hv⟩ := bind_eq_ok.1 hv
      cases hv
      have hflat := map_flatten_mapM_read (g.lowerSlotLogged (g.lowerBlockLogged fuel) b) runs
      rw [BlockKind.flatMap_slots_eq hruns, hparts] at hflat
      obtain ⟨part, heq, hpart⟩ := mapM_eq_ok.1 hflat.symm
      rw [heq]
      refine ⟨rfl, part, hpart, ?_, ?_, ?_⟩ <;> simp [List.flatMap_map, Function.comp_def]

theorem lowerSlotLogged_eq_of_free (h : g.shape.Wired) {slot : String} {s : SocketId}
    (hs : g.shape.site s = some (b, .input slot)) (hfree : g.shape.guest s = none)
    (lowerChild : BlockId → Except Fault Logged) :
    g.lowerSlotLogged lowerChild b slot =
      .ok ⟨⟨.var (holeName s) (some (.socket s)), [s]⟩, []⟩ := by
  obtain ⟨p, hp⟩ := h.owner hs
  rw [lowerSlotLogged, (inputNamed_eq_ok h hp).2 hs]
  change (g.pluggedBlock s >>= _) = _
  rw [pluggedBlock_eq h hs, hfree]
  rfl

theorem lowerSlotLogged_eq_of_guest (h : g.shape.Wired) {slot : String} {s : SocketId}
    (hs : g.shape.site s = some (b, .input slot)) (hc : g.shape.guest s = some c)
    (lowerChild : BlockId → Except Fault Logged) :
    g.lowerSlotLogged lowerChild b slot = lowerChild c := by
  obtain ⟨p, hp⟩ := h.owner hs
  rw [lowerSlotLogged, (inputNamed_eq_ok h hp).2 hs]
  change (g.pluggedBlock s >>= _) = _
  rw [pluggedBlock_eq h hs, hc]
  rfl

/-- A tag of a tree is that of the root, or it is below one of the inputs of the root. -/
theorem exists_marks_iff {p : Ports} (h : g.shape.Wired) (hp : g.shape.ports b = some p)
    (tag : Tag) : (∃ c, g.shape.Below c b ∧ g.shape.Marks c tag) ↔
      tag = .block b ∨ ∃ s slot, g.shape.site s = some (b, .input slot) ∧ g.shape.Under s tag := by
  constructor
  · rintro ⟨c, hc, hmarks⟩
    rcases ReflTransGen.cases_tail hc with rfl | ⟨d, hcd, hplug⟩
    · cases tag with
      | block e => exact .inl (congrArg _ hmarks.1)
      | socket s =>
          obtain ⟨hfree, slot, hs⟩ := hmarks
          exact .inr ⟨s, slot, hs, .inl ⟨hfree, rfl⟩⟩
    · obtain ⟨s, hs, hguest⟩ := (h.plugged_iff_input hp).1 hplug
      obtain ⟨slot, hs⟩ := (h.lists hp).input hs
      exact .inr ⟨s, slot, hs, .inr ⟨d, hguest, c, hcd, hmarks⟩⟩
  · rintro (rfl | ⟨s, slot, hs, ⟨hfree, rfl⟩ | ⟨d, hguest, c, hc, hmarks⟩⟩)
    · exact ⟨b, .refl, rfl, p, hp⟩
    · exact ⟨b, .refl, hfree, slot, hs⟩
    · exact ⟨c, hc.tail (h.plugged_of_guest hs hguest), hmarks⟩

section

variable (h : g.shape.Regular ∅)

include h

/-- What lists of what is below the inputs of a block come to, if they have nothing twice. -/
theorem nodup_flatMap_slots {α : Type} (tagOf : α → Tag) {p : Ports} (hp : g.shape.ports b = some p)
    {part : String → List α}
    (hnodup : ∀ slot ∈ p.kind.slots, (part slot).Nodup)
    (hunder : ∀ slot ∈ p.kind.slots, ∀ s, g.shape.site s = some (b, .input slot) →
      ∀ a ∈ part slot, g.shape.Under s (tagOf a)) : (p.kind.slots.flatMap part).Nodup := by
  refine List.nodup_flatMap.2 ⟨hnodup, (h.sound hp).unrepeated.nodup_slots.pairwise_of_forall_ne
    fun slot hslot slot' hslot' hne a ha ha' => hne ?_⟩
  obtain ⟨s, hs⟩ := h.exists_site hp False.elim hslot
  obtain ⟨s', hs'⟩ := h.exists_site hp False.elim hslot'
  obtain rfl := h.toWired.under_unique h.acyclic hs hs' (hunder slot hslot s hs a ha)
    (hunder slot' hslot' s' hs' a ha')
  rw [hs] at hs'
  cases hs'
  rfl

/-- Lowering comes to every block of the tree once and leaves every free input open once. -/
theorem covers_lowerBlockLogged {v : Logged} (hv : g.lowerBlockLogged fuel b = .ok v) :
    v.Covers fun tag => ∃ c, g.shape.Below c b ∧ g.shape.Marks c tag := by
  induction fuel generalizing b v with
  | zero => cases hv
  | succ fuel ih =>
      obtain ⟨block, hblock, -, part, hparts, -, hholes, hlog⟩ := exists_parts_of_logged hv
      have hp := shape_ports_eq_some.2 ⟨block, hblock, rfl⟩
      have hslot : ∀ slot ∈ block.kind.slots, ∀ s, g.shape.site s = some (b, .input slot) →
          (part slot).Covers (g.shape.Under s) := fun slot hslot s hs => by
        have hpart := hparts slot hslot
        cases hguest : g.shape.guest s with
        | none =>
            rw [lowerSlotLogged_eq_of_free h.toWired hs hguest, Except.ok.injEq] at hpart
            rw [← hpart]
            refine ⟨fun c => ?_, fun d => ?_, List.nodup_nil, List.nodup_singleton _⟩ <;>
              simp [Under, hguest]
        | some c =>
            rw [lowerSlotLogged_eq_of_guest h.toWired hs hguest] at hpart
            have hc := ih hpart
            have hiff : ∀ tag, g.shape.Under s tag ↔
                ∃ d, g.shape.Below d c ∧ g.shape.Marks d tag := fun tag => by
              simp [Under, hguest]
            exact ⟨fun d => (hc.blocks d).trans (hiff _).symm,
              fun d => (hc.holes d).trans (hiff _).symm, hc.nodup_blocks, hc.nodup_holes⟩
      have hmem : ∀ {tag : Tag} {P : String → Prop}, (∀ slot ∈ block.kind.slots, ∀ s,
          g.shape.site s = some (b, .input slot) → (P slot ↔ g.shape.Under s tag)) →
          ((∃ slot ∈ block.kind.slots, P slot) ↔
            ∃ s slot, g.shape.site s = some (b, .input slot) ∧ g.shape.Under s tag) := by
        intro tag P hP
        constructor
        · rintro ⟨slot, hslot, hpart⟩
          obtain ⟨s, hs⟩ := h.exists_site hp False.elim hslot
          exact ⟨s, slot, hs, (hP slot hslot s hs).1 hpart⟩
        · rintro ⟨s, slot, hs, hunder⟩
          have hslot := h.mem_slots hp False.elim hs
          exact ⟨slot, hslot, (hP slot hslot s hs).2 hunder⟩
      have hmapped : v.log.map (·.1) =
          b :: block.kind.slots.flatMap fun slot => (part slot).log.map (·.1) := by
        rw [hlog, List.map_cons, List.map_flatMap]
      have hbelow := fun slot hmem s hs => (hslot slot hmem s hs).blocks
      refine ⟨fun c => ?_, fun s => ?_, ?_, ?_⟩
      · rw [hmapped, List.mem_cons, List.mem_flatMap, exists_marks_iff h.toWired hp,
          hmem fun slot hmem s hs => hbelow slot hmem s hs c, Tag.block.injEq]
      · rw [hholes, List.mem_flatMap, exists_marks_iff h.toWired hp,
          hmem fun slot hmem s' hs' => (hslot slot hmem s' hs').holes s, or_iff_right nofun]
      · rw [hmapped, List.nodup_cons]
        refine ⟨fun hb => ?_, nodup_flatMap_slots h Tag.block hp (fun slot hmem => ?_)
          fun slot hmem s hs c => (hbelow slot hmem s hs c).1⟩
        · obtain ⟨slot, hmem, hb⟩ := List.mem_flatMap.1 hb
          obtain ⟨s, hs⟩ := h.exists_site hp False.elim hmem
          exact h.toWired.under_ne_block h.acyclic hs ((hbelow slot hmem s hs b).1 hb) rfl
        · obtain ⟨s, hs⟩ := h.exists_site hp False.elim hmem
          exact (hslot slot hmem s hs).nodup_blocks
      · rw [hholes]
        refine nodup_flatMap_slots h Tag.socket hp (fun slot hmem => ?_)
          fun slot hmem s hs d => ((hslot slot hmem s hs).holes d).1
        obtain ⟨s, hs⟩ := h.exists_site hp False.elim hmem
        exact (hslot slot hmem s hs).nodup_holes

/-- The open inputs come in the order of the inputs of the blocks, and not in that in which a
block's term is put together. -/
theorem holes_lowerBlock {l : Lowered} (hl : g.lowerBlock fuel b = .ok l) :
    l.holes = g.openInputs fuel b := by
  induction fuel generalizing b l with
  | zero => cases hl
  | succ fuel ih =>
      obtain ⟨block, hblock, -, part, hparts, rfl⟩ := lowerBlock_eq_ok.1 hl
      have hp := shape_ports_eq_some.2 ⟨block, hblock, rfl⟩
      rw [openInputs, hblock]
      let holesAt : Option String → List SocketId := fun slot? =>
        slot?.elim [] fun slot => (part slot).holes
      calc block.kind.slots.flatMap (fun slot => (part slot).holes)
          = (block.kind.slots.map some).flatMap holesAt := by rw [List.flatMap_map]; rfl
        _ = (block.inputs.map g.shape.slot).flatMap holesAt := by rw [← h.fits hp False.elim]
        _ = block.inputs.flatMap fun s => holesAt (g.shape.slot s) := List.flatMap_map ..
        _ = _ := List.flatMap_congr fun s hs => ?_
      obtain ⟨slot, hsite⟩ := (h.lists hp).input hs
      have hpart := hparts slot (h.mem_slots hp False.elim hsite)
      rw [Shape.slot, hsite]
      change (part slot).holes = _
      cases hguest : g.shape.guest s with
      | none =>
          rw [lowerSlot_eq_of_free h.toWired hsite hguest, Except.ok.injEq] at hpart
          rw [← hpart]
      | some c =>
          rw [lowerSlot_eq_of_guest h.toWired hsite hguest] at hpart
          exact ih hpart

/-- Whatever lowering comes to makes a term with its tag, unless it is a function without
parameters. -/
theorem tag_of_mem_log {v : Logged} (hv : g.lowerBlockLogged fuel b = .ok v) {e : Term}
    (he : (c, e) ∈ v.log) : ∃ block, g.blocks[c]? = some block ∧
      ((∀ name, block.kind ≠ .function name []) → e.tag = some (.block c)) := by
  induction fuel generalizing b v with
  | zero => cases hv
  | succ fuel ih =>
      obtain ⟨block, hblock, hruns, part, hparts, hterm, -, hlog⟩ := exists_parts_of_logged hv
      have hp := shape_ports_eq_some.2 ⟨block, hblock, rfl⟩
      rw [hlog] at he
      rcases List.mem_cons.1 he with heq | he
      · cases heq
        exact ⟨block, hblock, fun hkind => hterm ▸ BlockKind.tag_assemble hruns hkind _⟩
      · obtain ⟨slot, hslot, he⟩ := List.mem_flatMap.1 he
        obtain ⟨s, hs⟩ := h.exists_site hp False.elim hslot
        have hpart := hparts slot hslot
        cases hguest : g.shape.guest s with
        | none =>
            rw [lowerSlotLogged_eq_of_free h.toWired hs hguest, Except.ok.injEq] at hpart
            rw [← hpart] at he
            exact (List.not_mem_nil he).elim
        | some d =>
            rw [lowerSlotLogged_eq_of_guest h.toWired hs hguest] at hpart
            exact ih hpart he

/-- The variable that stands for an open input is in the term once. -/
theorem exists_occurrences_hole {l : Lowered} (hl : g.lowerBlock fuel b = .ok l) {s : SocketId}
    {slot : String} (hs : g.shape.site s = some (c, .input slot)) (hfree : g.shape.guest s = none)
    (hc : g.shape.Below c b) (outer : List String) :
    ∃ scope, (l.term.occurrences outer).filter (·.tag = some (.socket s)) =
      [⟨holeName s, some (.socket s), scope⟩] := by
  induction fuel generalizing b l outer with
  | zero => cases hl
  | succ fuel ih =>
      obtain ⟨block, hblock, hruns, part, hparts, rfl⟩ := lowerBlock_eq_ok.1 hl
      have hp := shape_ports_eq_some.2 ⟨block, hblock, rfl⟩
      rcases ReflTransGen.cases_tail hc with rfl | ⟨d, hcd, hplug⟩
      · have hpart := hparts slot (h.mem_slots hp False.elim hs)
        rw [lowerSlot_eq_of_free h.toWired hs hfree, Except.ok.injEq] at hpart
        refine ⟨block.kind.bindsAt slot ++ outer, List.perm_singleton.1
          ((filter_occurrences_perm h hblock hruns hparts hs (.inl ⟨hfree, rfl⟩) outer).trans ?_)⟩
        rw [← hpart]
        simp [Term.occurrences]
      · obtain ⟨d', hd', hguest⟩ := (h.toWired.plugged_iff_input hp).1 hplug
        obtain ⟨slot', hd'⟩ := (h.lists hp).input hd'
        have hpart := hparts slot' (h.mem_slots hp False.elim hd')
        rw [lowerSlot_eq_of_guest h.toWired hd' hguest] at hpart
        obtain ⟨scope, hscope⟩ := ih hpart hcd (block.kind.bindsAt slot' ++ outer)
        have hmarks : g.shape.Marks c (.socket s) := ⟨hfree, slot, hs⟩
        exact ⟨scope, List.perm_singleton.1 ((filter_occurrences_perm h hblock hruns hparts hd'
          (.inr ⟨d, hguest, c, hcd, hmarks⟩) outer).trans (.of_eq hscope))⟩

/-- Every variable in the term of a tree is that of an open input, or a block brings it in. -/
theorem of_mem_occurrences {l : Lowered} (hl : g.lowerBlock fuel b = .ok l) {outer : List String}
    {o : Occurrence} (ho : o ∈ l.term.occurrences outer) :
    (∃ s, o.name = holeName s ∧ o.tag = some (.socket s)) ∨
      ∃ c block, g.shape.Below c b ∧ g.blocks[c]? = some block ∧ block.kind.Brings o.name := by
  induction fuel generalizing b l outer with
  | zero => cases hl
  | succ fuel ih =>
      obtain ⟨block, hblock, hruns, part, hparts, rfl⟩ := lowerBlock_eq_ok.1 hl
      have hp := shape_ports_eq_some.2 ⟨block, hblock, rfl⟩
      rcases (BlockKind.adds_assemble hruns (h.sound hp).unrepeated _ outer).mem ho with hown | ho
      · exact .inr ⟨b, block, .refl, hblock, hown.1⟩
      · obtain ⟨slot, hslot, ho⟩ := List.mem_flatMap.1 ho
        obtain ⟨s, hs⟩ := h.exists_site hp False.elim hslot
        have hpart := hparts slot hslot
        cases hguest : g.shape.guest s with
        | none =>
            rw [lowerSlot_eq_of_free h.toWired hs hguest, Except.ok.injEq] at hpart
            rw [← hpart] at ho
            obtain rfl := List.mem_singleton.1 ho
            exact .inl ⟨s, rfl, rfl⟩
        | some d =>
            rw [lowerSlot_eq_of_guest h.toWired hs hguest] at hpart
            refine (ih hpart ho).imp_right fun ⟨c, block, hc, hrest⟩ => ⟨c, block, ?_, hrest⟩
            exact hc.tail (h.toWired.plugged_of_guest hs hguest)

end

/-- What lowering a tree comes to: it visits the blocks of the tree, each once, and each makes a
term with its tag; it leaves the free inputs open, each once and in order. The variable of an open
input is in the term once, and it is the only one of its name if nothing in the tree is called
so. -/
structure LowersWhole (g : Graph) (b : BlockId) (v : Logged) : Prop where
  visits : ∃ found, g.descendants b = .ok found ∧ ∀ c, c ∈ v.log.map (·.1) ↔ c ∈ found
  once : (v.log.map (·.1)).Nodup
  tagged : ∀ {c e block}, (c, e) ∈ v.log → g.blocks[c]? = some block →
    (∀ name, block.kind ≠ .function name []) → e.tag = some (.block c)
  holes : v.lowered.holes = g.openInputs g.depth b
  mem_holes : ∀ s, s ∈ v.lowered.holes ↔ g.shape.guest s = none ∧
    ∃ c slot, g.shape.Below c b ∧ g.shape.site s = some (c, .input slot)
  nodup_holes : v.lowered.holes.Nodup
  hole : ∀ s ∈ v.lowered.holes, ∃ scope,
    (v.lowered.term.occurrences []).filter (·.tag = some (.socket s)) =
      [⟨holeName s, some (.socket s), scope⟩]
  alone : ∀ s ∈ v.lowered.holes,
    (∀ c block, g.shape.Below c b → g.blocks[c]? = some block →
      block.kind ≠ .variable (holeName s) ∧ ∀ arity, block.kind ≠ .operator (holeName s) arity) →
    ∃ scope, (v.lowered.term.occurrences []).filter (·.name = holeName s) =
      [⟨holeName s, some (.socket s), scope⟩]

theorem exists_lowersWhole (h : g.shape.Regular ∅) (hblock : g.blocks[b]? = some block)
    (hruns : block.kind.operands?.isSome) : ∃ v, g.lower b = .ok v.lowered ∧
      g.lowerBlockLogged g.depth b = .ok v ∧ g.LowersWhole b v := by
  have hp := shape_ports_eq_some.2 ⟨block, hblock, rfl⟩
  obtain ⟨l, hlower, hl⟩ := exists_lower_of_isSome h hblock hruns
  obtain ⟨v, hv, rfl⟩ := map_eq_ok.1 ((map_lowerBlockLogged g g.depth b).trans hl)
  obtain ⟨found, hfound, hmem⟩ := exists_descendants_eq h.toWired hp
  have hcovers := covers_lowerBlockLogged h hv
  have hholes : ∀ s, s ∈ v.lowered.holes ↔ g.shape.guest s = none ∧
      ∃ c slot, g.shape.Below c b ∧ g.shape.site s = some (c, .input slot) := fun s => by
    rw [hcovers.holes]
    exact ⟨fun ⟨c, hc, hfree, slot, hs⟩ => ⟨hfree, c, slot, hc, hs⟩,
      fun ⟨hfree, c, slot, hc, hs⟩ => ⟨c, hc, hfree, slot, hs⟩⟩
  have hhole : ∀ s ∈ v.lowered.holes, ∃ scope,
      (v.lowered.term.occurrences []).filter (·.tag = some (.socket s)) =
        [⟨holeName s, some (.socket s), scope⟩] := fun s hs => by
    obtain ⟨hfree, c, slot, hc, hsite⟩ := (hholes s).1 hs
    exact exists_occurrences_hole h hl hsite hfree hc []
  refine ⟨v, hlower, hv, ⟨found, hfound, fun c => ?_⟩, hcovers.nodup_blocks,
    fun {c e block'} he hblock' hkind => ?_, holes_lowerBlock h hl, hholes, hcovers.nodup_holes,
    hhole, fun s hs hnames => ?_⟩
  · rw [hcovers.blocks, hmem]
    exact ⟨fun ⟨d, hd, heq, _⟩ => heq ▸ hd, fun hc =>
      ⟨c, hc, rfl, h.toWired.ports_of_connected ⟨_, hp⟩ (Connected.symm (Below.connected hc))⟩⟩
  · obtain ⟨block'', hblock'', htag⟩ := tag_of_mem_log h hv he
    cases hblock'.symm.trans hblock''
    exact htag hkind
  · obtain ⟨scope, hscope⟩ := hhole s hs
    refine ⟨scope, (List.filter_congr fun o ho => decide_eq_decide.2 ?_).trans hscope⟩
    constructor
    · intro hname
      rcases of_mem_occurrences h hl ho with ⟨s', hname', htag⟩ | ⟨c, block', hc, hblock', hbrings⟩
      · rw [htag, holeName_injective (hname'.symm.trans hname)]
      · rw [hname] at hbrings
        obtain ⟨hvariable, hoperator⟩ := hnames c block' hc hblock'
        rcases BlockKind.eq_of_brings_holeName hbrings with heq | ⟨arity, heq⟩
        · exact (hvariable heq).elim
        · exact (hoperator arity heq).elim
    · intro htag
      have hmem : o ∈ (v.lowered.term.occurrences []).filter (·.tag = some (.socket s)) :=
        List.mem_filter.2 ⟨ho, decide_eq_true htag⟩
      rw [hscope, List.mem_singleton] at hmem
      rw [hmem]

end Graph

namespace Workspace

variable {ws : Workspace} {b : BlockId} {block : Block}

/-- Whatever is not a statement and declares no type is lowered as a whole. -/
theorem Reachable.lowersWhole (h : ws.Reachable Command.AddsUnrepeated)
    (hblock : ws.main.blocks[b]? = some block) (hdeclaration : ¬ block.kind.isDeclaration)
    (hstatement : ¬ block.kind.isStatement) :
    ∃ v, ws.main.lower b = .ok v.lowered ∧
      ws.main.lowerBlockLogged ws.main.depth b = .ok v ∧ ws.main.LowersWhole b v := by
  refine Graph.exists_lowersWhole h.settled.1.1 hblock ?_
  cases hkind : block.kind with
  | data decl => rw [hkind] at hdeclaration; exact (hdeclaration rfl).elim
  | statement name => rw [hkind] at hstatement; exact (hstatement rfl).elim
  | _ => rfl

set_option maxRecDepth 8000 in
/-- An application of an application, of which the function and both arguments are open. -/
theorem lowersWhole_apply_apply :
    let ws := [.add .main .apply, .add .main .apply, .plug ⟨1⟩ ⟨0⟩ "FUNC"].foldl after
      (ofSettings default)
    ∃ v, ws.main.lower ⟨0⟩ = .ok v.lowered ∧
      ws.main.lowerBlockLogged ws.main.depth ⟨0⟩ = .ok v ∧ ws.main.LowersWhole ⟨0⟩ v := by
  intro ws
  have hreachable : ws.Reachable Command.AddsUnrepeated := (Reachable.start default).foldl
    (by simp [Command.AddsUnrepeated, BlockKind.Unrepeated])
  have hblock : (ws.main.blocks[(⟨0⟩ : BlockId)]?).map (·.kind) = some .apply := by
    subst ws
    cbv
  clear_value ws
  obtain ⟨block, hblock, hkind⟩ := Option.map_eq_some_iff.1 hblock
  exact hreachable.lowersWhole hblock (by simp [hkind, BlockKind.isDeclaration])
    (by simp [hkind, BlockKind.isStatement])

set_option maxRecDepth 8000 in
/-- A variable that the user calls as an open input is named makes for a second variable of that
name. -/
theorem not_hole_once : ¬ ∀ {ws : Workspace} {b : BlockId} {block : Block} {l : Lowered},
    ws.Reachable Command.AddsUnrepeated → ws.main.blocks[b]? = some block →
    ¬ block.kind.isDeclaration → ¬ block.kind.isStatement → ws.main.lower b = .ok l →
    ∀ s ∈ l.holes, ∃ scope, (l.term.occurrences []).filter (·.name = holeName s) =
      [⟨holeName s, some (.socket s), scope⟩] := by
  intro hclaim
  let commands : List Command := [.add .main .apply, .add .main (.variable "%c2"),
    .plug ⟨1⟩ ⟨0⟩ "FUNC"]
  let ws := commands.foldl after (ofSettings default)
  have hreachable : ws.Reachable Command.AddsUnrepeated := (Reachable.start default).foldl
    (by simp [commands, Command.AddsUnrepeated, BlockKind.Unrepeated])
  have hblock : (ws.main.blocks[(⟨0⟩ : BlockId)]?).map (·.kind) = some .apply := by
    subst ws commands
    cbv
  have hlower : ws.main.lower ⟨0⟩ = .ok ⟨.app (.var "%c2" (some (.block ⟨1⟩)))
      (.var "%c2" (some (.socket ⟨2⟩))) (some (.block ⟨0⟩)), [⟨2⟩]⟩ := by
    subst ws commands
    cbv
  clear_value ws
  obtain ⟨block, hblock, hkind⟩ := Option.map_eq_some_iff.1 hblock
  obtain ⟨scope, hscope⟩ := hclaim hreachable hblock (by simp [hkind, BlockKind.isDeclaration])
    (by simp [hkind, BlockKind.isStatement]) hlower ⟨2⟩ (List.mem_singleton_self _)
  have hname : holeName ⟨2⟩ = "%c2" := by decide
  simp [Term.occurrences, hname] at hscope

end Workspace

end Plugboard
