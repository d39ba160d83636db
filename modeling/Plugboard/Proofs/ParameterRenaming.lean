import Mathlib.Data.List.TakeWhile
import Plugboard.Proofs.AlphaEquivalence
import Plugboard.Proofs.ChosenNames
import Plugboard.Proofs.Coherence
import Plugboard.Proofs.Renewal
import Plugboard.Proofs.SameShape

/-!
# Renaming a parameter preserves the program

A parameter is renamed together with the variables below the function that refer to it. As long as
nothing captures the new name, the function is lowered to an alpha-equivalent term afterwards.
-/

namespace Plugboard

open Relation

variable {old new : String}

namespace BlockKind

variable {tag : Tag}

theorem rename_call (func : Term) (args : List Term) :
    (call tag func args).rename old new =
      call tag (func.rename old new) (args.map (·.rename old new)) := by
  induction args generalizing func with
  | nil => rfl
  | cons arg args ih => exact ih _

theorem rename_callName {name : String} (hname : name ≠ old) (args : List Term) :
    (callName tag name args).rename old new = callName tag name (args.map (·.rename old new)) := by
  rw [callName, rename_call, Term.rename, if_neg hname]
  rfl

theorem rename_listTerm (hold : old ∉ [Prelude.consName, Prelude.nilName]) (items : List Term) :
    (listTerm tag items).rename old new = listTerm tag (items.map (·.rename old new)) := by
  simp only [List.mem_cons, List.not_mem_nil, or_false, not_or] at hold
  induction items with
  | nil =>
      change Term.var (if Prelude.nilName = old then new else Prelude.nilName) _ = _
      rw [if_neg (Ne.symm hold.2)]
      rfl
  | cons item items ih =>
      change (callName tag Prelude.consName [item, listTerm tag items]).rename old new = _
      rw [rename_callName (Ne.symm hold.1), List.map_cons, List.map_singleton, ih]
      rfl

theorem rename_comprehensionTerm
    (hold : old ∉ [Prelude.bindName, Prelude.guardName, Prelude.yieldName]) {vars : List String}
    (hvars : vars.Nodup) (source : String → Term) (guards : List Term) (body : Term) :
    (comprehensionTerm tag (vars.zip (vars.map source)) guards body).rename old new =
      comprehensionTerm tag
        (vars.zip (vars.map fun v =>
          if (vars.takeWhile fun u => Slot.generator u != Slot.generator v).contains old
          then source v else (source v).rename old new))
        (if vars.contains old then guards else guards.map (·.rename old new))
        (if vars.contains old then body else body.rename old new) := by
  simp only [List.mem_cons, List.not_mem_nil, or_false, not_or] at hold
  obtain ⟨hbind, hguard, hyield⟩ := hold
  induction vars with
  | nil =>
      change (guards.foldr (fun guard rest => callName tag Prelude.guardName [guard, rest])
        (callName tag Prelude.yieldName [body])).rename old new = _
      induction guards with
      | nil => exact rename_callName (Ne.symm hyield) _
      | cons guard guards ih =>
          rw [List.foldr_cons, rename_callName (Ne.symm hguard), List.map_cons, List.map_singleton,
            ih]
          rfl
  | cons v vars ih =>
      obtain ⟨hv, hvars⟩ := List.nodup_cons.1 hvars
      have hcons : ∀ (source : String → Term) (guards : List Term) (body : Term),
          comprehensionTerm tag ((v :: vars).zip ((v :: vars).map source)) guards body =
            callName tag Prelude.bindName [source v,
              .lam v (comprehensionTerm tag (vars.zip (vars.map source)) guards body) none] :=
        fun _ _ _ => rfl
      have hlater : ∀ w ∈ vars,
          ((v :: vars).takeWhile fun u => Slot.generator u != Slot.generator w).contains old =
            (old == v || (vars.takeWhile fun u => Slot.generator u != Slot.generator w).contains
              old) := by
        intro w hw
        have hne : (Slot.generator v != Slot.generator w) = true :=
          bne_iff_ne.2 (Slot.generator_injective.ne fun h => hv (h ▸ hw))
        rw [List.takeWhile_cons, if_pos hne, List.contains_cons]
      rw [hcons, hcons, rename_callName (Ne.symm hbind), List.map_cons, List.map_singleton,
        List.contains_cons]
      rw [show (v :: vars).takeWhile (fun u => Slot.generator u != Slot.generator v) = [] from
        List.takeWhile_cons_of_neg (by simp)]
      refine congrArg (fun rest => callName tag Prelude.bindName
        [(source v).rename old new, .lam v rest none]) ?_
      by_cases heq : v = old
      · rw [if_pos heq, heq, beq_self_eq_true, Bool.true_or, if_pos rfl, if_pos rfl]
        refine congrArg (fun sources => comprehensionTerm tag (vars.zip sources) guards body) ?_
        refine List.map_congr_left fun w hw => ?_
        rw [← heq] at hlater ⊢
        rw [hlater w hw, beq_self_eq_true, Bool.true_or, if_pos rfl]
      · rw [if_neg heq, ih hvars, beq_false_of_ne (Ne.symm heq), Bool.false_or]
        refine congrArg (fun sources => comprehensionTerm tag (vars.zip sources) _ _) ?_
        refine List.map_congr_left fun w hw => ?_
        rw [hlater w hw, beq_false_of_ne (Ne.symm heq), Bool.false_or]

/-- The term of a block with an output is renamed by renaming the parts that see the name. -/
theorem rename_assemble {kind : BlockKind} (hkind : kind.operands?.isSome) (hout : kind.hasOutput)
    (hunrepeated : kind.Unrepeated) (hbrings : ¬ kind.Brings old) (part : String → Term) :
    (kind.assemble tag (kind.slots.map part)).rename old new =
      kind.assemble tag (kind.slots.map fun slot =>
        if kind.shadows slot old then part slot else (part slot).rename old new) := by
  cases kind with
  | literal value ty => rfl
  | operator name arity =>
      cases arity with
      | zero => exact congrArg (Term.var · _) (if_neg hbrings)
      | succ arity =>
          rw [assemble_operator, rename_callName hbrings, List.map_map, assemble_operator]
          rfl
  | «variable» name => exact congrArg (Term.var · _) (if_neg hbrings)
  | lambda param =>
      simp only [slots, List.map_cons, List.map_nil, assemble, Term.rename, shadows,
        beq_self_eq_true, Bool.true_and, beq_iff_eq]
  | apply => exact rename_call _ _
  | localLet name =>
      simp only [slots, List.map_cons, List.map_nil, assemble, Term.rename, shadows,
        beq_self_eq_true, Bool.true_and, beq_iff_eq]
      rfl
  | list items =>
      refine (rename_listTerm hbrings _).trans ?_
      rw [List.map_map]
      rfl
  | comprehension vars guards =>
      have hguards : ∀ i, (vars.takeWhile fun u => Slot.generator u != Slot.guard i) = vars :=
        fun i => List.takeWhile_eq_self_iff.2 fun v _ =>
          bne_iff_ne.2 (Slot.generator_ne_guard v i)
      have hyielded : (vars.takeWhile fun u => Slot.generator u != Slot.yielded) = vars :=
        List.takeWhile_eq_self_iff.2 fun v _ => bne_iff_ne.2 (Slot.generator_ne_yielded v)
      rw [assemble_comprehension, assemble_comprehension,
        rename_comprehensionTerm hbrings hunrepeated]
      simp only [shadows, hguards, hyielded]
      congr 1
      split
      · rfl
      · exact List.map_map
  | cases typeName arms =>
      have hscrutinee : (BlockKind.cases typeName arms).shadows Slot.scrutinee old = false := by
        simp [shadows, Slot.arm_ne_scrutinee]
      have harms : ∀ arm ∈ arms, (BlockKind.cases typeName arms).shadows
          (Slot.arm arm.constructor) old = arm.binders.contains old := by
        intro arm harm
        rw [Bool.eq_iff_iff]
        simp only [shadows, List.any_eq_true, Bool.and_eq_true, beq_iff_eq]
        constructor
        · rintro ⟨other, hother, hsame, hmem⟩
          obtain rfl := List.inj_on_of_nodup_map hunrepeated hother harm (Slot.arm_injective hsame)
          exact hmem
        · exact fun hmem => ⟨arm, harm, rfl, hmem⟩
      rw [assemble_cases, assemble_cases, rename_callName (Ne.symm hbrings), List.map_cons,
        List.map_map, hscrutinee]
      refine congrArg (fun bodies => callName tag (caseName typeName) (_ :: bodies)) ?_
      refine List.map_congr_left fun arm harm => ?_
      rw [Function.comp_apply, Term.rename_lamAll, harms arm harm]
      simp only [List.contains_iff_mem]
  | function name params => cases hout
  | data decl => cases hout
  | statement name => cases hout

theorem assemble_function (name : String) {params : List String} (hparams : params ≠ [])
    (body : Term) :
    (function name params).assemble tag [body] = (Term.lamAll params body).tagged tag := by
  cases params with
  | nil => exact (hparams rfl).elim
  | cons param params => rfl

end BlockKind

namespace Graph

variable {g : Graph} {f : Rekinding} {b c : BlockId} {name : String}

def rekind (f : Rekinding) (g : Graph) : Graph :=
  { g with blocks := g.blocks.map fun b block => { block with kind := f b block.kind } }

theorem getElem?_rekind (f : Rekinding) (b : BlockId) : (g.rekind f).blocks[b]? =
    (g.blocks[b]?).map fun block => { block with kind := f b block.kind } :=
  Std.ExtTreeMap.getElem?_map

theorem shape_rekind (f : Rekinding) : (g.rekind f).shape = g.shape.rekind f := by
  simp [shape, Shape.rekind, Function.comp_def, rekind]

theorem block_rekind (f : Rekinding) (b : BlockId) : (g.rekind f).block b =
    (g.block b).map fun block => { block with kind := f b block.kind } := by
  rw [block, block, getElem?_rekind]
  cases g.blocks[b]? <;> rfl

theorem lowerSlot_rekind (f : Rekinding) : (g.rekind f).lowerSlot = g.lowerSlot := by
  have hinput : (g.rekind f).inputNamed = g.inputNamed := by
    funext b slot
    rw [inputNamed, inputNamed, block_rekind]
    cases g.block b <;> rfl
  funext lowerChild b slot
  rw [lowerSlot, lowerSlot, hinput]
  rfl

theorem checkAcyclic_rekind (f : Rekinding) : (g.rekind f).checkAcyclic = g.checkAcyclic := by
  refine checkAcyclic_congr ?_ (congrArg (· + 1) Std.ExtTreeMap.size_map)
  funext b
  rw [children, children, block_rekind]
  cases g.block b <;> rfl

theorem lower_rekind (f : Rekinding) (b : BlockId) : (g.rekind f).lower b =
    (g.checkAcyclic b >>= fun _ => (g.rekind f).lowerBlock g.depth b) := by
  have hdepth : (g.rekind f).depth = g.depth := congrArg (· + 1) Std.ExtTreeMap.size_map
  rw [lower, checkAcyclic_rekind, hdepth]

theorem lowerSlot_congr {lowerChild lowerChild' : BlockId → Except Fault Lowered} {slot : String}
    (h : ∀ c, g.Takes b c → lowerChild' c = lowerChild c) :
    g.lowerSlot lowerChild' b slot = g.lowerSlot lowerChild b slot := by
  rw [lowerSlot, lowerSlot]
  cases hs : g.inputNamed b slot with
  | error e => rfl
  | ok s =>
      change (g.pluggedBlock s >>= _) = g.pluggedBlock s >>= _
      cases hc : g.pluggedBlock s with
      | error e => rfl
      | ok child? =>
          cases child? with
          | none => rfl
          | some c => exact h c ⟨slot, s, hs, hc⟩

variable (h : g.shape.Wired)

include h

theorem plugged_of_takes (htakes : g.Takes b c) : g.shape.Plugged c b := by
  obtain ⟨slot, s, hs, hc⟩ := htakes
  obtain ⟨block, hblock, -⟩ := bind_eq_ok.1 hs
  have hsite := (inputNamed_eq_ok h (shape_ports_eq_some.2 ⟨block, block_eq_ok.1 hblock, rfl⟩)).1 hs
  rw [pluggedBlock_eq h hsite] at hc
  exact h.plugged_of_guest hsite (Except.ok.inj hc)

/-- A tree is lowered to the same as long as its own blocks keep their kinds. -/
theorem lowerBlock_rekind_of_kept {fuel : Nat} (hkept : ∀ d block, g.shape.Below d c →
      g.blocks[d]? = some block → f d block.kind = block.kind) :
    (g.rekind f).lowerBlock fuel c = g.lowerBlock fuel c := by
  induction fuel generalizing c with
  | zero => rfl
  | succ fuel ih =>
      have hslot : g.lowerSlot ((g.rekind f).lowerBlock fuel) c =
          g.lowerSlot (g.lowerBlock fuel) c := by
        funext slot
        refine lowerSlot_congr fun d htakes => ih fun x block hx hblock => ?_
        exact hkept x block (hx.tail (plugged_of_takes h htakes)) hblock
      rw [lowerBlock, lowerBlock, lowerSlot_rekind, hslot, block_rekind]
      cases hblock : g.block c with
      | error e => rfl
      | ok block =>
          have hsame : { block with kind := f c block.kind } = block := by
            rw [hkept c block .refl (block_eq_ok.1 hblock)]
          rw [Except.map, hsame]

theorem lower_rekind_of_kept (hkept : ∀ d block, g.shape.Below d c →
      g.blocks[d]? = some block → f d block.kind = block.kind) :
    (g.rekind f).lower c = g.lower c := by
  rw [lower_rekind, lowerBlock_rekind_of_kept h hkept, lower]

omit h

/-- Of the blocks below `root` the variables that see the old name get the new one, and the others
keep their kinds; nothing else brings the old name into a term where it is seen. -/
structure RenamesBelow (g : Graph) (old new : String) (root : BlockId) (f : Rekinding) : Prop where
  uses : ∀ {b block}, ReflTransGen (g.shape.Shows old) root b → g.blocks[b]? = some block →
    block.kind.hasOutput →
    f b block.kind = if block.kind = .variable old then .variable new else block.kind
  hidden : ∀ {b block}, g.shape.Below b root → ¬ ReflTransGen (g.shape.Shows old) root b →
    g.blocks[b]? = some block → f b block.kind = block.kind
  brings : ∀ {b block}, ReflTransGen (g.shape.Shows old) root b → g.blocks[b]? = some block →
    block.kind.hasOutput → block.kind.Brings old → block.kind = .variable old

namespace RenamesBelow

variable {root : BlockId} {fuel : Nat} {l : Lowered} (hf : g.RenamesBelow old new root f)
  (hsh : g.shape.Regular ∅) (hholes : ∀ s, holeName s ≠ old)

include hf hsh hholes

/-- The part of a block in a slot is renamed if it sees the name. -/
theorem lowerSlot_eq {block : Block} {slot : String}
    (hb : ReflTransGen (g.shape.Shows old) root b) (hblock : g.blocks[b]? = some block)
    (hslot : slot ∈ block.kind.slots)
    (hchild : ∀ c l, g.shape.Shows old b c → g.lowerBlock fuel c = .ok l →
      (g.rekind f).lowerBlock fuel c = .ok ⟨l.term.rename old new, l.holes⟩)
    (hl : g.lowerSlot (g.lowerBlock fuel) b slot = .ok l) :
    (g.rekind f).lowerSlot ((g.rekind f).lowerBlock fuel) b slot =
      .ok ⟨if block.kind.shadows slot old then l.term else l.term.rename old new, l.holes⟩ := by
  have hp := shape_ports_eq_some.2 ⟨block, hblock, rfl⟩
  obtain ⟨s, hs⟩ := hsh.exists_site hp False.elim hslot
  rw [lowerSlot_rekind]
  simp only [lowerSlot, (inputNamed_eq_ok hsh.toWired hp).2 hs, pluggedBlock_eq hsh.toWired hs,
    bind, Except.bind] at hl ⊢
  cases hguest : g.shape.guest s with
  | none =>
      rw [hguest] at hl
      cases hl
      have hrename : (Term.var (holeName s) (some (.socket s))).rename old new =
          .var (holeName s) (some (.socket s)) := congrArg (Term.var · _) (if_neg (hholes s))
      dsimp only
      rw [hrename, ite_self]
      rfl
  | some c =>
      rw [hguest] at hl
      dsimp only at hl ⊢
      split
      · rename_i hshadows
        refine (lowerBlock_rekind_of_kept hsh.toWired fun x block' hx hblock' => ?_).trans hl
        -- nothing below `c` sees the name, for `c` does not
        have hplug := hsh.toWired.plugged_of_guest hs hguest
        have hbelow := (hx.tail hplug).trans (hsh.toWired.below_of_shows hb)
        refine hf.hidden hbelow (fun hseen => ?_) hblock'
        obtain ⟨q, s', slot', hq, hs', hguest', hfree⟩ :=
          hsh.toWired.shows_of_below hsh.acyclic hseen hb hplug hx
        cases hp.symm.trans hq
        obtain rfl := hsh.toWired.guest_unique hs hs' hguest hguest'
        cases hs.symm.trans hs'
        exact hfree hshadows
      · rename_i hshadows
        exact hchild c l ⟨_, s, slot, hp, hs, hguest, hshadows⟩ hl

/-- The term of a tree is renamed. -/
theorem lowerBlock_eq (hb : ReflTransGen (g.shape.Shows old) root b)
    (hout : ∀ block, g.blocks[b]? = some block → block.kind.hasOutput)
    (hl : g.lowerBlock fuel b = .ok l) :
    (g.rekind f).lowerBlock fuel b = .ok ⟨l.term.rename old new, l.holes⟩ := by
  induction fuel generalizing b l with
  | zero => cases hl
  | succ fuel ih =>
      obtain ⟨block, hblock, hkind, part, hparts, rfl⟩ := lowerBlock_eq_ok.1 hl
      have hout := hout block hblock
      have hrekind := hf.uses hb hblock hout
      have hslots := fun slot hslot => hf.lowerSlot_eq hsh hholes hb hblock hslot (fun c l hshows =>
        ih (hb.tail hshows) fun block' hblock' =>
          hsh.hasOutput_of_plugged (hshows.plugged hsh.toWired)
            (shape_ports_eq_some.2 ⟨block', hblock', rfl⟩)) (hparts slot hslot)
      refine lowerBlock_eq_ok.2
        ⟨_, (getElem?_rekind f b).trans (congrArg (Option.map _) hblock), ?_⟩
      dsimp only
      rw [hrekind]
      by_cases hvariable : block.kind = .variable old
      · rw [if_pos hvariable, hvariable]
        refine ⟨rfl, part, fun slot hslot => (List.not_mem_nil hslot).elim, ?_⟩
        simp [BlockKind.assemble, BlockKind.slots, Term.rename]
      · rw [if_neg hvariable]
        refine ⟨hkind, _, hslots, ?_⟩
        rw [BlockKind.rename_assemble hkind hout
          (hsh.sound (shape_ports_eq_some.2 ⟨block, hblock, rfl⟩)).unrepeated
          fun hbrings => hvariable (hf.brings hb hblock hout hbrings)]

/-- A function of which a parameter is renamed stands for an alpha-equivalent term. -/
theorem exists_lower_eq {block : Block} {name : String} {params : List String}
    (hblock : g.blocks[root]? = some block) (hkind : block.kind = .function name params)
    (hroot : f root block.kind = .function name (params.replace old new)) (hnodup : params.Nodup)
    (hold : old ∈ params) (hnew : new ∉ params) (hl : g.lower root = .ok l)
    (hbody : ∀ body, l.term = (Term.lamAll params body).tagged (.block root) →
      ¬ body.Mentions new ∧ body.CaptureFree old new) :
    ∃ l', (g.rekind f).lower root = .ok l' ∧ l'.holes = l.holes ∧
      Term.AlphaEq [] l.term l'.term := by
  obtain ⟨⟨⟩, hacyclic, hl⟩ := bind_eq_ok.1 hl
  rw [lower_rekind, hacyclic]
  change g.lowerBlock (g.blocks.size + 1) root = .ok l at hl
  change ∃ l', (g.rekind f).lowerBlock (g.blocks.size + 1) root = .ok l' ∧ _
  have hresult : Slot.result ∈ block.kind.slots := hkind ▸ List.mem_singleton_self _
  have hplain : block.kind.shadows Slot.result old = false := hkind ▸ rfl
  obtain ⟨block', hblock', -, part, hparts, rfl⟩ := lowerBlock_eq_ok.1 hl
  cases hblock.symm.trans hblock'
  have hslot := hf.lowerSlot_eq hsh hholes .refl hblock hresult (fun c l hshows hl =>
    hf.lowerBlock_eq hsh hholes (.single hshows) (fun block' hblock' =>
      hsh.hasOutput_of_plugged (hshows.plugged hsh.toWired)
        (shape_ports_eq_some.2 ⟨block', hblock', rfl⟩)) hl) (hparts _ hresult)
  rw [hplain] at hslot
  have hparams : params ≠ [] := List.ne_nil_of_mem hold
  have hreplace : params.replace old new ≠ [] := by
    rw [← List.length_pos_iff, List.length_replace]
    exact List.length_pos_iff.2 hparams
  have hassemble : block.kind.assemble (.block root) (block.kind.slots.map fun slot =>
      (part slot).term) = (Term.lamAll params (part Slot.result).term).tagged (.block root) := by
    rw [hkind]
    exact BlockKind.assemble_function name hparams _
  obtain ⟨hfree, hcapture⟩ := hbody _ hassemble
  refine ⟨⟨(Term.lamAll (params.replace old new) ((part Slot.result).term.rename old new)).tagged
    (.block root), (part Slot.result).holes⟩, lowerBlock_eq_ok.2
      ⟨_, (getElem?_rekind f root).trans (congrArg (Option.map _) hblock), ?_⟩, ?_, ?_⟩
  · dsimp only
    rw [hroot]
    refine ⟨rfl, fun _ => ⟨(part Slot.result).term.rename old new, (part Slot.result).holes⟩,
      fun slot hmem => List.mem_singleton.1 hmem ▸ hslot, ?_⟩
    rw [← BlockKind.assemble_function name hreplace]
    simp [BlockKind.slots]
  · rw [hkind]
    simp [BlockKind.slots]
  · dsimp only
    rw [hassemble]
    exact (Term.alphaEq_lamAll_replace hnodup hold hnew hfree hcapture).tagged _

end RenamesBelow

end Graph

namespace Workspace

variable {ws : Workspace} {b : BlockId} {name : String} {params : List String}

/-- What a workspace looks like in which a parameter has been renamed. -/
theorem shape_renameParameter (h : ws.Settled ∅) {p : Ports} (hp : ws.main.shape.ports b = some p)
    (hkind : p.kind = .function name params)
    (hok : (ws.perform (.renameParameter b old new)).1.isOk) :
    old ∈ params ∧ new ∉ params ∧ ∃ uses, ws.main.usesOf b old = .ok uses ∧
      (ws.after (.renameParameter b old new)).main.shape = ws.main.shape.rekind
        (.renaming b (.function name (params.replace old new)) uses new) := by
  let Q : Workspace → Prop := fun ws' => old ∈ params ∧ new ∉ params ∧
    ∃ uses, ws.main.usesOf b old = .ok uses ∧ ws'.main.shape = ws.main.shape.rekind
      (.renaming b (.function name (params.replace old new)) uses new)
  have hends : Ends (WorkspaceM.renameParameter b old new) ws (fun _ => Q) (· = ws) := by
    refine WorkspaceM.ends_renameParameter_of h
      fun {p' name' params' uses ws'} hp' hkind' hold hnew huses hws' hshape _ => ?_
    cases hp.symm.trans hp'
    cases hkind.symm.trans hkind'
    exact (WorkspaceM.completes_finishEdit hws'.1.1 [b] ws' ⟨⟨rfl, rfl⟩, hws'.2⟩).imp
      (fun _ ws'' hws'' => ⟨hold, hnew, uses, huses, hws''.1.1.trans hshape⟩) fun _ => id
  have hcommand : Ends (WorkspaceM.perform (.renameParameter b old new)) ws (fun _ => Q) (· = ws) :=
    ends_map.2 hends
  exact (hcommand.of_isOk hok).elim fun _ => id

/-- A parameter that is renamed is so in the whole program: the function stands for an
alpha-equivalent term afterwards and every other function for the term it stood for, if nothing
below the function captures the new name and only variables bring in the old one. -/
theorem Reachable.alphaEq_renameParameter (h : ws.Reachable Command.AddsUnrepeated) {block : Block}
    (hblock : ws.main.blocks[b]? = some block) (hkind : block.kind = .function name params)
    (hnodup : params.Nodup) (hholes : ∀ s, holeName s ≠ old)
    (hbrings : ∀ {c block'}, ReflTransGen (ws.main.shape.Shows old) b c →
      ws.main.blocks[c]? = some block' → block'.kind.hasOutput → block'.kind.Brings old →
      block'.kind = .variable old)
    {l : Lowered} (hl : ws.main.lower b = .ok l)
    (hbody : ∀ body, l.term = (Term.lamAll params body).tagged (.block b) →
      ¬ body.Mentions new ∧ body.CaptureFree old new)
    (hok : (ws.perform (.renameParameter b old new)).1.isOk) :
    (∃ l', (ws.after (.renameParameter b old new)).main.lower b = .ok l' ∧ l'.holes = l.holes ∧
      Term.AlphaEq [] l.term l'.term) ∧
      ∀ c name', c ≠ b → ws.main.shape.Defines c name' →
        (ws.after (.renameParameter b old new)).main.lower c = ws.main.lower c := by
  have hsh := h.settled.1.1
  have hp := Graph.shape_ports_eq_some.2 ⟨block, hblock, rfl⟩
  obtain ⟨hold, hnew, uses, huses, hshape⟩ := shape_renameParameter h.settled hp hkind hok
  have huse := fun c => Graph.mem_usesWithin hsh.toWired (c := c) huses
  have hroot : b ∉ uses := fun hmem => by
    obtain ⟨-, block', hblock', hvariable⟩ := (huse b).1 hmem
    cases hblock.symm.trans hblock'
    cases hkind.symm.trans hvariable
  have hkept : ∀ {c kind}, c ≠ b → c ∉ uses →
      Rekinding.renaming b (.function name (params.replace old new)) uses new c kind = kind :=
    fun hc hmem => (if_neg hmem).trans (if_neg hc)
  rw [(Graph.SameShape.of_shape_eq (hshape.trans (Graph.shape_rekind _).symm)).lower_eq]
  refine ⟨?_, fun c name' hc hdefines => ?_⟩
  · have hrenames : ws.main.RenamesBelow old new b
        (.renaming b (.function name (params.replace old new)) uses new) := by
      refine ⟨fun {c block'} hseen hblock' hout => ?_, fun {c block'} hbelow hhidden hblock' => ?_,
        hbrings⟩
      · split
        · rename_i hvariable
          exact if_pos ((huse c).2 ⟨hseen, block', hblock', hvariable⟩)
        · rename_i hvariable
          refine hkept ?_ fun hmem => ?_
          · rintro rfl
            cases hblock.symm.trans hblock'
            rw [hkind] at hout
            cases hout
          · obtain ⟨-, block'', hblock'', hvariable'⟩ := (huse c).1 hmem
            cases hblock'.symm.trans hblock''
            exact hvariable hvariable'
      · exact hkept (fun hcb => hhidden (hcb ▸ .refl)) fun hmem => hhidden ((huse c).1 hmem).1
    exact hrenames.exists_lower_eq hsh hholes hblock hkind ((if_neg hroot).trans (if_pos rfl))
      hnodup hold hnew hl hbody
  · -- no block is below two functions
    have hapart : ∀ d, ws.main.shape.Below d b → ¬ ws.main.shape.Below d c := fun d hdb hdc =>
      hc (hsh.toWired.eq_of_below_tops (fun _ => hsh.not_plugged hdefines)
        (fun _ => hsh.not_plugged ⟨_, params, hp, hkind⟩) hdc hdb)
    refine Graph.lower_rekind_of_kept hsh.toWired fun d block' hd hblock' => hkept ?_ fun hmem => ?_
    · rintro rfl
      exact hapart d .refl hd
    · exact hapart d (hsh.toWired.below_of_shows ((huse d).1 hmem).1) hd

-- a binder of the new name between the function and a use captures the use
set_option maxRecDepth 4000 in
example :
    let ws := [.add .main (.function "k" ["x"]), .add .main (.lambda "y"),
      .add .main (.variable "x"), .plug ⟨2⟩ ⟨1⟩ "BODY", .plug ⟨1⟩ ⟨0⟩ "RETURN"].foldl after
      (ofSettings default)
    (ws.after (.renameParameter ⟨0⟩ "x" "y")).main.lower ⟨0⟩ =
      .ok ⟨.lam "y" (.lam "y" (.var "y" (some (.block ⟨2⟩))) (some (.block ⟨1⟩)))
        (some (.block ⟨0⟩)), []⟩ := by
  cbv

/-- A name that is nowhere on the canvas may be given to any parameter that no operator has the
name of. -/
theorem Reachable.alphaEq_renameParameter_of_fresh (h : ws.Reachable Command.AddsUnrepeated)
    (hnames : ws.main.shape.NamesApart) {block : Block} (hblock : ws.main.blocks[b]? = some block)
    (hkind : block.kind = .function name params) (hnodup : params.Nodup)
    (hoperators : ∀ c p arity, ws.main.shape.ports c = some p → p.kind ≠ .operator old arity)
    (hbinds : ¬ ws.main.shape.Binds new)
    (hbrings : ∀ c p, ws.main.shape.ports c = some p → ¬ p.kind.Brings new)
    (hholes : ∀ s, new ≠ holeName s) {l : Lowered} (hl : ws.main.lower b = .ok l)
    (hok : (ws.perform (.renameParameter b old new)).1.isOk) :
    (∃ l', (ws.after (.renameParameter b old new)).main.lower b = .ok l' ∧ l'.holes = l.holes ∧
      Term.AlphaEq [] l.term l'.term) ∧
      ∀ c name', c ≠ b → ws.main.shape.Defines c name' →
        (ws.after (.renameParameter b old new)).main.lower c = ws.main.lower c := by
  have hp := Graph.shape_ports_eq_some.2 ⟨block, hblock, rfl⟩
  obtain ⟨hold, hnew, -⟩ := shape_renameParameter h.settled hp hkind hok
  have hparam : old ∈ block.kind.binders := by rwa [hkind]
  have hplain : ¬ Reserved old := (hnames.binder ⟨b, _, hp, hparam⟩).1
  refine h.alphaEq_renameParameter hblock hkind hnodup
    (fun s heq => hplain (.inr (.inr ⟨s, heq.symm⟩))) (fun {c block'} _ hblock' _ hold' => ?_) hl
    (fun body hterm => ⟨fun hmentions => ?_, ?_⟩) hok
  · refine (BlockKind.eq_of_brings hplain hold').resolve_right fun ⟨arity, hoperator⟩ => ?_
    exact hoperators c _ arity (Graph.shape_ports_eq_some.2 ⟨block', hblock', rfl⟩) hoperator
  · have hfree : l.term.Mentions new :=
      hterm ▸ BlockKind.mentions_tagged.2 (Term.mentions_lamAll_iff.2 ⟨hnew, hmentions⟩)
    rcases Graph.mentions_lower hl hfree with ⟨s, hs⟩ | ⟨c, block', -, hblock', hnew'⟩
    · exact hholes s hs
    · exact hbrings c _ (Graph.shape_ports_eq_some.2 ⟨block', hblock', rfl⟩) hnew'
  · have hbinders : l.term.BindersIn (· ≠ new) :=
      Graph.bindersIn_lower (fun {c block'} hblock' binder hbinder (heq : binder = new) => hbinds
        ⟨c, _, Graph.shape_ports_eq_some.2 ⟨block', hblock', rfl⟩, heq ▸ hbinder⟩) hl
    rw [hterm] at hbinders
    exact hbinders.of_lamAll.captureFree

end Workspace

end Plugboard
